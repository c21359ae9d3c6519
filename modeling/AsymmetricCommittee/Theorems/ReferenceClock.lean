import AsymmetricCommittee.Orchestration.References
import AsymmetricCommittee.Contracts.Samples
import AsymmetricCommittee.Theorems.CalendarArithmetic
import AsymmetricCommittee.Theorems.TradingWindows

/-! Trading and reference capture. The window reads the broker's calendar and the reference time the stored one; where the
    two agree they pick one session. The window starts at a delay of its own, the reference time at the configured one. -/

namespace AsymmetricCommittee
namespace References
open CalendarRules Schedule

variable {et : Int → Date} {ss : List MarketSession} {cal : TradingCalendar} {config : RebalanceConfig}
  {asOf refTime : AwareDatetime} {session : TradingSession} {window : AwareDatetime × AwareDatetime}

/-- The stored calendar holds the broker's sessions of every date that it covers, and no others. -/
structure StoredFrom (ss : List MarketSession) (cal : TradingCalendar) : Prop where
  opened : ∀ d s, cal.session d = .ok s → ∃ m ∈ ss, m.sessionDate = d ∧ s.sessionDate = d ∧
    s.openAt.instant = m.opensAt.instant ∧ s.closeAt.instant = m.closesAt.instant
  closed : ∀ d, cal.status d = .closed → ∀ m ∈ ss, m.sessionDate ≠ d

/-- Both pick one session, and the window starts at the reference time. -/
def SameClock (et : Int → Date) (ss : List MarketSession) (asOf : AwareDatetime) (window : AwareDatetime × AwareDatetime)
    (session : TradingSession) (refTime : AwareDatetime) : Prop :=
  (∃ m, Schedule.nextSession et (brokerCalendar ss) asOf = .ok m ∧ m.sessionDate = session.sessionDate ∧
    window.2.instant = session.closeAt.instant) ∧
  window.1.instant = refTime.instant

/-- The reference day is the broker's first session after the date. -/
theorem referenceDay_eq_ok (hstored : StoredFrom ss cal) (h : referenceDay et config cal asOf = .ok (session, refTime)) :
    ∃ m ∈ ss, m.sessionDate = session.sessionDate ∧ session.openAt.instant = m.opensAt.instant ∧
      session.closeAt.instant = m.closesAt.instant ∧ refTime = session.openAt.plus (delayOf config) ∧
      et asOf.instant < m.sessionDate ∧ ∀ x ∈ ss, et asOf.instant < x.sessionDate → m.sessionDate ≤ x.sessionDate := by
  obtain ⟨d0, hd0, h⟩ := Except.bind_eq_ok.mp h
  obtain ⟨s, hs, h⟩ := Except.bind_eq_ok.mp h
  cases h
  obtain ⟨hlt, -, -, hclosed⟩ := CalendarRules.nextSession_eq_ok.mp hd0
  obtain ⟨m, hm, hdate, hkey, hopens, hcloses⟩ := hstored.opened d0 session hs
  refine ⟨m, hm, hdate.trans hkey.symm, hopens, hcloses, rfl, hdate ▸ hlt, fun x hx hlater => ?_⟩
  rw [hdate]
  by_contra hbefore
  exact hstored.closed x.sessionDate (hclosed _ hlater (not_le.mp hbefore)) x hx rfl

/-- The window starts at the run's reference time iff the configured delay is the half hour that it is written with. -/
theorem sameClock_iff (hss : Increasing ss) (hstored : StoredFrom ss cal)
    (hwindow : executionWindow et (brokerCalendar ss) asOf executionDelay = .ok window)
    (href : referenceDay et config cal asOf = .ok (session, refTime)) :
    SameClock et ss asOf window session refTime ↔ config.minutesAfterOpen = 30 := by
  obtain ⟨m, hm, rfl⟩ := Except.map_eq_ok.mp hwindow
  obtain ⟨hmem, hlo, -, hleast⟩ := (Schedule.nextSession_eq_ok hss).mp hm
  obtain ⟨m', hmem', hdate, hopens, hcloses, rfl, hlo', hleast'⟩ := referenceDay_eq_ok hstored href
  obtain rfl : m = m' := hss.eq_of_date hmem hmem' (le_antisymm (hleast m' hmem' hlo') (hleast' m hmem hlo))
  simp only [SameClock, AwareDatetime.instant_plus, hopens, hcloses]
  constructor
  · rintro ⟨-, hstart⟩
    unfold delayOf executionDelay minutes at hstart
    omega
  · intro hminutes
    exact ⟨⟨m, hm, hdate, trivial⟩, by rw [delayOf, hminutes]; rfl⟩

/-! ### An hour after the open -/

/-- The stored session of a trading day. -/
def storedDay (day : Int) : TradingSession :=
  ⟨(tradingDay day).opensAt, ⟨0, 0⟩, ⟨"v", Samples.label_v⟩, day, (tradingDay day).opensAt, (tradingDay day).closesAt,
    (tradingDay day).ordered, rfl⟩

def storedMonday : TradingCalendar := ⟨Dict.empty.set 4 (storedDay 4), [(1, 6)]⟩

theorem storedMonday_stored : StoredFrom ([4].map tradingDay) storedMonday where
  opened d s h := by
    obtain ⟨-, hget⟩ := session_eq_ok h
    rw [storedMonday, Dict.get?_set] at hget
    split at hget
    · next hd =>
      cases hget
      exact ⟨tradingDay 4, List.mem_cons_self, hd.symm, hd.symm, rfl, rfl⟩
    · cases hget
  closed d h m hm hd := by
    simp only [List.map_cons, List.map_nil, List.mem_cons, List.not_mem_nil, or_false] at hm
    subst hm
    rw [← hd] at h
    exact absurd h (by decide)

theorem mondays_increasing : Increasing ([4].map tradingDay) := (tradingDays_map [4] (by decide)).dates

theorem sameClock_half_hour : SameClock eastern ([4].map tradingDay) (tradingDay 1).closesAt
    ((tradingDay 4).opensAt.plus executionDelay, (tradingDay 4).closesAt) (storedDay 4)
    ((tradingDay 4).opensAt.plus executionDelay) := by
  have href : referenceDay eastern ⟨30, by decide⟩ storedMonday (tradingDay 1).closesAt =
      .ok (storedDay 4, (tradingDay 4).opensAt.plus executionDelay) := by decide
  exact (sameClock_iff mondays_increasing storedMonday_stored (by decide) href).mpr rfl

/-- With a delay of an hour trading starts half an hour before the references are taken. -/
theorem not_sameClock_hour : Increasing ([4].map tradingDay) ∧ StoredFrom ([4].map tradingDay) storedMonday ∧
    executionWindow eastern (brokerCalendar ([4].map tradingDay)) (tradingDay 1).closesAt executionDelay =
      .ok ((tradingDay 4).opensAt.plus (minutes 30), (tradingDay 4).closesAt) ∧
    referenceDay eastern ⟨60, by decide⟩ storedMonday (tradingDay 1).closesAt =
      .ok (storedDay 4, (tradingDay 4).opensAt.plus (minutes 60)) ∧
    ¬SameClock eastern ([4].map tradingDay) (tradingDay 1).closesAt
      ((tradingDay 4).opensAt.plus (minutes 30), (tradingDay 4).closesAt) (storedDay 4) ((tradingDay 4).opensAt.plus (minutes 60)) :=
  ⟨mondays_increasing, storedMonday_stored, by decide, by decide, fun h => absurd h.2 (by decide)⟩

end References
end AsymmetricCommittee
