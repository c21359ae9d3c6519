import AsymmetricCommittee.Theorems.CalendarCovered
import AsymmetricCommittee.Contracts.Samples
import Mathlib.Data.Int.Interval

/-! Arithmetic on sessions. A walk over dates ends at the nearest open date and has passed over closed ones only, so a
    step back undoes a step ahead, a horizon counts the open dates that it passes, and horizons add. A walk that meets an
    uncovered date first raises. -/

namespace AsymmetricCommittee
namespace CalendarRules
open TradingCalendar

variable {cal : TradingCalendar}

/-! ### One step -/

/-- A walk ends at the first open date, all dates before it being closed. -/
theorem walk_eq_ok_iff {day direction : Int} {n : Nat} {cursor result : Int} :
    cal.walk day direction n cursor = .ok result ↔
      ∃ k : Nat, k < n ∧ result = cursor + (k + 1) * direction ∧ cal.status result = .open ∧
        ∀ i : Nat, i < k → cal.status (cursor + (i + 1) * direction) = .closed := by
  induction n generalizing cursor with
  | zero =>
    constructor
    · intro h
      cases h
    · rintro ⟨k, hk, -⟩
      exact absurd hk (Nat.not_lt_zero k)
  | succ n ih =>
    -- a walk of `k + 1` closed dates from here is one of `k` from the next date
    have hfirst : ∀ k : Nat, cursor + ((k + 1 : Nat) + 1 : Int) * direction = cursor + direction + (k + 1) * direction :=
      fun k => by push_cast; ring
    unfold walk
    cases hs : cal.status (cursor + direction) with
    | uncovered =>
      constructor
      · intro h
        cases h
      · rintro ⟨k, -, hresult, hopen, hclosed⟩
        cases k with
        | zero =>
          rw [hresult, show cursor + ((0 : Nat) + 1 : Int) * direction = cursor + direction by push_cast; ring, hs] at hopen
          cases hopen
        | succ k =>
          have := hclosed 0 (Nat.zero_lt_succ k)
          rw [show cursor + ((0 : Nat) + 1 : Int) * direction = cursor + direction by push_cast; ring, hs] at this
          cases this
    | «open» =>
      constructor
      · intro h
        cases h
        exact ⟨0, Nat.zero_lt_succ n, by push_cast; ring, hs, fun i hi => absurd hi (Nat.not_lt_zero i)⟩
      · rintro ⟨k, -, hresult, hopen, hclosed⟩
        cases k with
        | zero => rw [hresult, show cursor + ((0 : Nat) + 1 : Int) * direction = cursor + direction by push_cast; ring]
        | succ k =>
          have := hclosed 0 (Nat.zero_lt_succ k)
          rw [show cursor + ((0 : Nat) + 1 : Int) * direction = cursor + direction by push_cast; ring, hs] at this
          cases this
    | closed =>
      dsimp only
      rw [ih]
      constructor
      · rintro ⟨k, hk, hresult, hopen, hclosed⟩
        refine ⟨k + 1, by omega, by rw [hresult, hfirst], hopen, fun i hi => ?_⟩
        cases i with
        | zero => rw [show cursor + ((0 : Nat) + 1 : Int) * direction = cursor + direction by push_cast; ring, hs]
        | succ i =>
          rw [hfirst]
          exact hclosed i (by omega)
      · rintro ⟨k, hk, hresult, hopen, hclosed⟩
        cases k with
        | zero =>
          rw [hresult, show cursor + ((0 : Nat) + 1 : Int) * direction = cursor + direction by push_cast; ring, hs] at hopen
          cases hopen
        | succ k =>
          refine ⟨k, by omega, by rw [hresult, hfirst], hopen, fun i hi => ?_⟩
          rw [← hfirst]
          exact hclosed (i + 1) (by omega)

/-- The next session is the nearest open date ahead, within the bound of a walk. -/
theorem nextSession_eq_ok {day x : Int} : cal.nextSession day = .ok x ↔
    day < x ∧ x ≤ day + maxWalkDays ∧ cal.status x = .open ∧ ∀ d : Int, day < d → d < x → cal.status d = .closed := by
  rw [nextSession, stepDay, walk_eq_ok_iff]
  constructor
  · rintro ⟨k, hk, rfl, hopen, hclosed⟩
    refine ⟨by omega, by omega, hopen, fun d hd hx => ?_⟩
    have := hclosed (d - day - 1).toNat (by omega)
    rwa [show day + (((d - day - 1).toNat : Int) + 1) * 1 = d by omega] at this
  · rintro ⟨hx, hbound, hopen, hclosed⟩
    refine ⟨(x - day - 1).toNat, by omega, by omega, hopen, fun i hi => hclosed _ (by omega) (by omega)⟩

/-- The previous session is the nearest open date behind, within the bound of a walk. -/
theorem previousSession_eq_ok {day x : Int} : cal.previousSession day = .ok x ↔
    x < day ∧ day ≤ x + maxWalkDays ∧ cal.status x = .open ∧ ∀ d : Int, x < d → d < day → cal.status d = .closed := by
  rw [previousSession, stepDay, walk_eq_ok_iff]
  constructor
  · rintro ⟨k, hk, rfl, hopen, hclosed⟩
    refine ⟨by omega, by omega, hopen, fun d hd hx => ?_⟩
    have := hclosed (day - d - 1).toNat (by omega)
    rwa [show day + (((day - d - 1).toNat : Int) + 1) * -1 = d by omega] at this
  · rintro ⟨hx, hbound, hopen, hclosed⟩
    refine ⟨(day - x - 1).toNat, by omega, by omega, hopen, fun i hi => hclosed _ (by omega) (by omega)⟩

/-- A step back undoes a step ahead from a session. -/
theorem previousSession_nextSession {d x : Int} (hopen : cal.status d = .open) (h : cal.nextSession d = .ok x) :
    cal.previousSession x = .ok d := by
  obtain ⟨hx, hbound, -, hclosed⟩ := nextSession_eq_ok.mp h
  exact previousSession_eq_ok.mpr ⟨hx, hbound, hopen, hclosed⟩

/-! ### Horizons -/

/-- The open dates after a date, up to another. -/
noncomputable def opensIn (cal : TradingCalendar) (lo hi : Int) : Finset Int := (Finset.Ioc lo hi).filter fun d => cal.status d = .open

theorem mem_opensIn {lo hi d : Int} : d ∈ opensIn cal lo hi ↔ (lo < d ∧ d ≤ hi) ∧ cal.status d = .open := by
  rw [opensIn, Finset.mem_filter, Finset.mem_Ioc]

theorem opensIn_next {day x hi : Int} (h : cal.nextSession day = .ok x) (hx : x ≤ hi) :
    opensIn cal day hi = insert x (opensIn cal x hi) := by
  obtain ⟨hlt, -, hopen, hclosed⟩ := nextSession_eq_ok.mp h
  ext d
  rw [Finset.mem_insert, mem_opensIn, mem_opensIn]
  constructor
  · rintro ⟨⟨hlo, hhi⟩, hd⟩
    rcases lt_trichotomy d x with hdx | rfl | hdx
    · rw [hclosed d hlo hdx] at hd
      cases hd
    · exact .inl rfl
    · exact .inr ⟨⟨hdx, hhi⟩, hd⟩
  · rintro (rfl | ⟨⟨hlo, hhi⟩, hd⟩)
    · exact ⟨⟨hlt, hx⟩, hopen⟩
    · exact ⟨⟨hlt.trans hlo, hhi⟩, hd⟩

theorem advance_succ (n : Nat) (cursor : Date) :
    cal.advance (n + 1) cursor = (cal.nextSession cursor).bind fun next => cal.advance n next := rfl

/-- What a number of steps passes: as many open dates, and covered ones only. -/
theorem advance_eq_ok {n : Nat} {cursor x : Int} (h : cal.advance n cursor = .ok x) :
    cursor ≤ x ∧ (opensIn cal cursor x).card = n ∧ (∀ d : Int, cursor < d → d ≤ x → cal.status d ≠ .uncovered) ∧
      (0 < n → cal.status x = .open) := by
  induction n generalizing cursor with
  | zero =>
    cases h
    refine ⟨le_rfl, ?_, fun d hd hx => by omega, fun h => absurd h (Nat.lt_irrefl 0)⟩
    rw [opensIn, Finset.Ioc_self]
    rfl
  | succ n ih =>
    rw [advance_succ] at h
    obtain ⟨next, hnext, h⟩ := Except.bind_eq_ok.mp h
    obtain ⟨hle, hcard, hcovered, hopen⟩ := ih h
    obtain ⟨hlt, -, hnextOpen, hclosed⟩ := nextSession_eq_ok.mp hnext
    refine ⟨hlt.le.trans hle, ?_, fun d hd hx => ?_, fun _ => ?_⟩
    · rw [opensIn_next hnext hle, Finset.card_insert_of_notMem fun hmem => (mem_opensIn.mp hmem).1.1.false, hcard]
    · rcases lt_trichotomy d next with hdn | rfl | hdn
      · rw [hclosed d hd hdn]
        exact nofun
      · rw [hnextOpen]
        exact nofun
      · exact hcovered d hdn hx
    · cases n with
      | zero =>
        cases h
        exact hnextOpen
      | succ n => exact hopen (Nat.zero_lt_succ n)

theorem advance_add (m n : Nat) (cursor : Date) :
    cal.advance (m + n) cursor = (cal.advance m cursor).bind fun next => cal.advance n next := by
  induction m generalizing cursor with
  | zero =>
    rw [Nat.zero_add]
    rfl
  | succ m ih =>
    rw [Nat.succ_add, advance_succ, advance_succ]
    cases cal.nextSession cursor with
    | error e => rfl
    | ok next => exact ih next

/-- Each session is stored under its own date, as `buildCalendar` stores it. -/
def Keyed (cal : TradingCalendar) : Prop := ∀ d s, cal.sessions.get? d = some s → s.sessionDate = d

theorem buildCalendar_keyed {sha256 : String → Sha256Hex} {ss : List TradingSession} {cs : List CalendarCoverage}
    (h : buildCalendar sha256 ss cs = .ok cal) : Keyed cal :=
  fun _ _ hget => (buildCalendar_eq_ok h).sessionDate hget

/-- A session of a keyed calendar is the one of its date. -/
theorem session_open (hkeyed : Keyed cal) {d : Date} (hopen : cal.status d = .open) :
    ∃ s, cal.session d = .ok s ∧ s.sessionDate = d := by
  have hsome : (cal.sessions.get? d).isSome := by
    by_contra hnone
    unfold TradingCalendar.status at hopen
    rw [if_neg hnone] at hopen
    split at hopen <;> cases hopen
  obtain ⟨s, hs⟩ := Option.isSome_iff_exists.mp hsome
  exact ⟨s, by simp only [TradingCalendar.session, hopen, hs], hkeyed d s hs⟩

/-- A horizon from a session is that many steps. -/
theorem horizonSession_open (hkeyed : Keyed cal) {d : Date} (hopen : cal.status d = .open) {n : Int} (hn : 0 < n) :
    cal.horizonSession d n = (cal.advance n.toNat d).mapError .coverage := by
  obtain ⟨s, hs, hdate⟩ := session_open hkeyed hopen
  rw [horizonSession, if_neg (by omega), hs]
  dsimp only
  rw [hdate]
  cases cal.advance n.toNat d <;> rfl

theorem horizonSession_eq_ok (hkeyed : Keyed cal) {d x : Int} (hopen : cal.status d = .open) {n : Int} (hn : 0 < n)
    (h : cal.horizonSession d n = .ok x) :
    d < x ∧ ((opensIn cal d x).card : Int) = n ∧ (∀ y : Int, d < y → y ≤ x → cal.status y ≠ .uncovered) ∧
      cal.status x = .open := by
  rw [horizonSession_open hkeyed hopen hn] at h
  cases hadvance : cal.advance n.toNat d with
  | error e =>
    rw [hadvance] at h
    cases h
  | ok y =>
    rw [hadvance] at h
    cases h
    obtain ⟨hle, hcard, hcovered, hx⟩ := advance_eq_ok hadvance
    refine ⟨lt_of_le_of_ne hle fun heq => ?_, by omega, hcovered, hx (by omega)⟩
    rw [← heq, opensIn, Finset.Ioc_self, Finset.filter_empty, Finset.card_empty] at hcard
    omega

/-- Horizons add. -/
theorem horizonSession_add (hkeyed : Keyed cal) {d : Int} (hopen : cal.status d = .open) {a b : Int} (ha : 0 < a)
    (hb : 0 < b) : cal.horizonSession d (a + b) = (cal.horizonSession d a).bind fun m => cal.horizonSession m b := by
  rw [horizonSession_open hkeyed hopen (by omega), horizonSession_open hkeyed hopen ha,
    Int.toNat_add ha.le hb.le, advance_add]
  cases hadvance : cal.advance a.toNat d with
  | error e => rfl
  | ok m =>
    have hm := (advance_eq_ok hadvance).2.2.2 (by omega)
    exact (horizonSession_open hkeyed hm hb).symm

/-! ### Walks that meet an uncovered date -/

theorem error_of_not_ok {ε α : Type} {x : Except ε α} (h : ∀ a, x ≠ .ok a) : ∃ e, x = .error e := by
  cases x with
  | error e => exact ⟨e, rfl⟩
  | ok a => exact absurd rfl (h a)

/-- Every query that would have to pass an uncovered date to answer raises: no open date that could be the answer lies
    before it. -/
structure FailsClosed (cal : TradingCalendar) (u : Int) : Prop where
  next : ∀ day : Int, day < u → (∀ d : Int, day < d → d < u → cal.status d ≠ .open) → ∃ e, cal.nextSession day = .error e
  previous : ∀ day : Int, u < day → (∀ d : Int, u < d → d < day → cal.status d ≠ .open) →
    ∃ e, cal.previousSession day = .error e
  entry : ∀ day : Int, day ≤ u → (∀ d : Int, day < d → d < u → cal.status d ≠ .open) → ∃ e, cal.d0 day = .error e
  horizon : ∀ (day : Int) (n : Int), day ≤ u → ((opensIn cal day u).card : Int) < n → ∃ e, cal.horizonSession day n = .error e
  closing : ∀ (instant : AwareDatetime) (day : Int), day ≤ u →
    (∀ (d : Int) (s : TradingSession), day ≤ d → d < u → cal.session d = .ok s → s.closeAt.instant ≤ instant.instant) →
    ∃ e, cal.sessionClosingAfter instant day = .error e

/-- The walk to a closing time raises when it meets an uncovered date before a session that is still open. -/
theorem walkClosing_uncovered {u : Int} (hu : cal.status u = .uncovered) {instant : Int} (n : Nat) {day : Int} (hday : day ≤ u)
    (hclosed : ∀ (d : Int) (s : TradingSession), day ≤ d → d < u → cal.session d = .ok s → s.closeAt.instant ≤ instant) :
    ∃ e, cal.walkClosing instant n day = .error e := by
  induction n generalizing day with
  | zero => exact ⟨_, rfl⟩
  | succ n ih =>
    have hlater : cal.status day ≠ .uncovered → ∃ e, cal.walkClosing instant n (day + 1) = .error e := by
      intro hs
      have hne : day ≠ u := fun h => hs (h ▸ hu)
      exact ih (by omega) fun d s hd => hclosed d s (by omega)
    unfold walkClosing
    cases hs : cal.status day with
    | uncovered => exact ⟨_, rfl⟩
    | closed => exact hlater (by simp [hs])
    | «open» =>
      have hcovered : cal.status day ≠ .uncovered := by
        simp [hs]
      dsimp only
      cases hget : cal.sessions.get? day with
      | none => exact hlater hcovered
      | some s =>
        have hlt : day < u := lt_of_le_of_ne hday fun h => hcovered (h ▸ hu)
        have hend := hclosed day s le_rfl hlt (by simp only [TradingCalendar.session, hs, hget])
        dsimp only
        rw [if_neg (by omega)]
        exact hlater hcovered

theorem failsClosed (hkeyed : Keyed cal) {u : Int} (hu : cal.status u = .uncovered) : FailsClosed cal u where
  next day hday hnone := error_of_not_ok fun x h => by
    obtain ⟨hlt, -, hopen, hclosed⟩ := nextSession_eq_ok.mp h
    rcases lt_trichotomy u x with hux | rfl | hxu
    · have := hclosed u hday hux
      rw [hu] at this
      cases this
    · rw [hu] at hopen
      cases hopen
    · exact hnone x hlt hxu hopen
  previous day hday hnone := error_of_not_ok fun x h => by
    obtain ⟨hlt, -, hopen, hclosed⟩ := previousSession_eq_ok.mp h
    rcases lt_trichotomy u x with hux | rfl | hxu
    · exact hnone x hux hlt hopen
    · rw [hu] at hopen
      cases hopen
    · have := hclosed u hxu hday
      rw [hu] at this
      cases this
  entry day hday hnone := error_of_not_ok fun x h => by
    obtain ⟨s, hs, h⟩ := Except.bind_eq_ok.mp h
    obtain ⟨hcovered, hget⟩ := session_eq_ok hs
    rw [hkeyed day s hget] at h
    have hne : day ≠ u := fun heq => hcovered (heq ▸ hu)
    obtain ⟨hlt, -, hopen, hclosed⟩ := nextSession_eq_ok.mp h
    rcases lt_trichotomy u x with hux | rfl | hxu
    · have := hclosed u (lt_of_le_of_ne hday hne) hux
      rw [hu] at this
      cases this
    · rw [hu] at hopen
      cases hopen
    · exact hnone x hlt hxu hopen
  horizon day n hday hfew := error_of_not_ok fun x h => by
    have hn : 0 < n := lt_of_le_of_lt (Int.natCast_nonneg _) hfew
    have hopen : cal.status day = .open := by
      rw [horizonSession, if_neg (by omega)] at h
      cases hs : cal.status day with
      | «open» => rfl
      | closed => simp [TradingCalendar.session, hs] at h
      | uncovered => simp [TradingCalendar.session, hs] at h
    obtain ⟨hlt, hcard, hcovered, -⟩ := horizonSession_eq_ok hkeyed hopen hn h
    have hne : day ≠ u := fun heq => by rw [heq, hu] at hopen; cases hopen
    -- the horizon ends before the uncovered date, where there are too few open dates
    have hxu : x < u := by
      by_contra hge
      exact hcovered u (lt_of_le_of_ne hday hne) (not_lt.mp hge) hu
    have hsub : opensIn cal day x ⊆ opensIn cal day u := fun d hd => by
      obtain ⟨⟨hlo, hhi⟩, hopen⟩ := mem_opensIn.mp hd
      exact mem_opensIn.mpr ⟨⟨hlo, hhi.trans hxu.le⟩, hopen⟩
    have := Finset.card_le_card hsub
    omega
  closing instant day hday hclosed := walkClosing_uncovered hu maxWalkDays hday hclosed

/-- Horizons add and count the open dates that they pass, a step back undoes a step ahead, and no walk skips an uncovered
    date. -/
theorem calendar_arithmetic (hkeyed : Keyed cal) {d : Int} (hopen : cal.status d = .open) {a b : Int} (ha : 0 < a)
    (hb : 0 < b) :
    cal.horizonSession d (a + b) = ((cal.horizonSession d a).bind fun m => cal.horizonSession m b) ∧
    (∀ x : Int, cal.horizonSession d (a + b) = .ok x → d < x ∧ ((opensIn cal d x).card : Int) = a + b ∧
      (∀ y : Int, d < y → y ≤ x → cal.status y ≠ .uncovered) ∧ cal.status x = .open) ∧
    (∀ x, cal.nextSession d = .ok x → cal.previousSession x = .ok d) ∧
    ∀ u, cal.status u = .uncovered → FailsClosed cal u :=
  ⟨horizonSession_add hkeyed hopen ha hb, fun _ hx => horizonSession_eq_ok hkeyed hopen (by omega) hx,
    fun _ hx => previousSession_nextSession hopen hx, fun _ hu => failsClosed hkeyed hu⟩

/-- Three sessions around a weekend. -/
def sessionOn (day : Date) : TradingSession :=
  ⟨⟨0, 0⟩, ⟨0, 0⟩, ⟨"v", Samples.label_v⟩, day, ⟨0, 0⟩, ⟨1, 0⟩, Samples.opens_first, Samples.known_then⟩

def weekendCalendar : TradingCalendar :=
  ⟨((Dict.empty.set 4 (sessionOn 4)).set 5 (sessionOn 5)).set 8 (sessionOn 8), [(1, 9)]⟩

theorem calendar_arithmetic_weekend :
    weekendCalendar.horizonSession 4 2 = (weekendCalendar.horizonSession 4 1).bind fun m => weekendCalendar.horizonSession m 1 := by
  have hkeyed : Keyed weekendCalendar := by
    intro d s hget
    simp only [weekendCalendar, Dict.get?_set, Dict.get?_empty] at hget
    split at hget
    · next hd => cases hget; exact hd.symm
    · split at hget
      · next hd => cases hget; exact hd.symm
      · split at hget
        · next hd => cases hget; exact hd.symm
        · cases hget
  exact (calendar_arithmetic hkeyed (by decide) (a := 1) (b := 1) (by decide) (by decide)).1

end CalendarRules
end AsymmetricCommittee
