import Mathlib
import AsymmetricCommittee.Lib.Except
import AsymmetricCommittee.Orchestration.Schedule

/-! The weekly windows. A decision time is the close of the last session of its ISO week, found as soon as the session
    after it is in sight; the execution window is that next session, so it lies between two decision times. What the
    schedule needs of the calendar is that its sessions increase and that each opens and closes on its own Eastern date. -/

namespace AsymmetricCommittee
namespace Schedule

/-! ### Ordered lists -/

section Lists
variable {α : Type} {R : α → α → Prop} {p : α → Bool} {l : List α} {x : α}

/-- The first element of a filter comes before every other element that passes it. -/
theorem filter_eq_cons {rest : List α} (hl : l.Pairwise R) (h : l.filter p = x :: rest) :
    x ∈ l ∧ p x = true ∧ ∀ y ∈ l, p y = true → y = x ∨ R x y := by
  have hx : x ∈ l.filter p := h ▸ List.mem_cons_self
  have hsorted : (x :: rest).Pairwise R := h ▸ hl.filter p
  refine ⟨(List.mem_filter.mp hx).1, (List.mem_filter.mp hx).2, fun y hy hpy => ?_⟩
  have hmem : y ∈ x :: rest := h ▸ List.mem_filter.mpr ⟨hy, hpy⟩
  rcases List.mem_cons.mp hmem with rfl | hmem
  · exact .inl rfl
  · exact .inr (List.rel_of_pairwise_cons hsorted hmem)

/-- The last element of a filter comes after every other element that passes it. -/
theorem getLast?_filter (hl : l.Pairwise R) (h : (l.filter p).getLast? = some x) :
    x ∈ l ∧ p x = true ∧ ∀ y ∈ l, p y = true → y = x ∨ R y x := by
  obtain ⟨before, hbefore⟩ := List.getLast?_eq_some_iff.mp h
  have hx : x ∈ l.filter p := hbefore ▸ List.mem_append_right _ (List.mem_singleton_self x)
  have hsorted : (before ++ [x]).Pairwise R := hbefore ▸ hl.filter p
  refine ⟨(List.mem_filter.mp hx).1, (List.mem_filter.mp hx).2, fun y hy hpy => ?_⟩
  have hmem : y ∈ before ++ [x] := hbefore ▸ List.mem_filter.mpr ⟨hy, hpy⟩
  rcases List.mem_append.mp hmem with hmem | hmem
  · exact .inr ((List.pairwise_append.mp hsorted).2.2 y hmem x (List.mem_singleton_self x))
  · exact .inl (List.mem_singleton.mp hmem)

end Lists

/-! ### The broker's calendar -/

/-- The calendar that answers from one list of sessions. -/
def brokerCalendar (ss : List MarketSession) : MarketCalendar := fun start stop =>
  ss.filter fun s => decide (start ≤ s.sessionDate ∧ s.sessionDate ≤ stop)

/-- One session a date, oldest first. -/
def Increasing (ss : List MarketSession) : Prop := ss.Pairwise fun a b => a.sessionDate < b.sessionDate

/-- Sessions that increase and do not overlap, each on its own Eastern date. -/
structure TradingDays (et : Int → Date) (ss : List MarketSession) : Prop where
  increasing : ss.Pairwise fun a b => a.sessionDate < b.sessionDate ∧ a.closesAt.instant ≤ b.opensAt.instant
  opens_on : ∀ s ∈ ss, et s.opensAt.instant = s.sessionDate
  closes_on : ∀ s ∈ ss, et s.closesAt.instant = s.sessionDate

/-- Eastern dates never go back, and every date comes. -/
structure EasternDates (et : Int → Date) : Prop where
  monotone : Monotone et
  onto : ∀ d, ∃ t, et t = d

section Days
variable {et : Int → Date} {ss : List MarketSession} {a b x : MarketSession}

theorem TradingDays.dates (hss : TradingDays et ss) : Increasing ss := hss.increasing.imp fun h => h.1

theorem Increasing.eq_of_date (hss : Increasing ss) (ha : a ∈ ss) (hb : b ∈ ss) (h : a.sessionDate = b.sessionDate) :
    a = b := by
  have : Std.Symm fun a b : MarketSession => a.sessionDate ≠ b.sessionDate := ⟨fun _ _ h => h.symm⟩
  have hsorted : ss.Pairwise fun a b => a.sessionDate ≠ b.sessionDate := hss.imp fun h => h.ne
  by_contra hab
  exact hsorted.forall ha hb hab h

/-- Of two sessions one is over before the other opens. -/
theorem TradingDays.trichotomy (hss : TradingDays et ss) (ha : a ∈ ss) (hb : b ∈ ss) :
    a = b ∨ (a.sessionDate < b.sessionDate ∧ a.closesAt.instant ≤ b.opensAt.instant) ∨
      (b.sessionDate < a.sessionDate ∧ b.closesAt.instant ≤ a.opensAt.instant) := by
  let R := fun a b : MarketSession => (a.sessionDate < b.sessionDate ∧ a.closesAt.instant ≤ b.opensAt.instant) ∨
    (b.sessionDate < a.sessionDate ∧ b.closesAt.instant ≤ a.opensAt.instant)
  have : Std.Symm R := ⟨fun _ _ h => h.symm⟩
  have hsorted : ss.Pairwise R := hss.increasing.imp Or.inl
  by_cases hab : a = b
  · exact .inl hab
  · exact .inr (hsorted.forall ha hb hab)

theorem TradingDays.lt_of_lt (hss : TradingDays et ss) (ha : a ∈ ss) (hb : b ∈ ss) (h : a.sessionDate < b.sessionDate) :
    a.closesAt.instant ≤ b.opensAt.instant := by
  rcases hss.trichotomy ha hb with rfl | hab | hba
  · exact absurd h (lt_irrefl _)
  · exact hab.2
  · exact absurd h hba.1.asymm

/-- A later session closes later. -/
theorem TradingDays.close_lt (hss : TradingDays et ss) (ha : a ∈ ss) (hb : b ∈ ss) (h : a.sessionDate < b.sessionDate) :
    a.closesAt.instant < b.closesAt.instant := (hss.lt_of_lt ha hb h).trans_lt b.ordered

theorem mem_brokerCalendar {start stop : Date} :
    x ∈ brokerCalendar ss start stop ↔ x ∈ ss ∧ start ≤ x.sessionDate ∧ x.sessionDate ≤ stop := by
  rw [brokerCalendar, List.mem_filter, decide_eq_true_eq]

theorem Increasing.broker (hss : Increasing ss) (start stop : Date) : Increasing (brokerCalendar ss start stop) :=
  hss.filter _

/-- `b` is the session after `a`. -/
structure Next (ss : List MarketSession) (a b : MarketSession) : Prop where
  mem : b ∈ ss
  later : a.sessionDate < b.sessionDate
  first : ∀ x ∈ ss, a.sessionDate < x.sessionDate → b.sessionDate ≤ x.sessionDate

theorem Next.unique (hss : Increasing ss) {b' : MarketSession} (h : Next ss a b) (h' : Next ss a b') : b = b' :=
  hss.eq_of_date h.mem h'.mem (le_antisymm (h.first b' h'.mem h'.later) (h'.first b h.mem h.later))

/-- `s` is the last session of its ISO week. -/
def LastOfWeek (ss : List MarketSession) (s : MarketSession) : Prop :=
  s ∈ ss ∧ ∀ x ∈ ss, s.sessionDate < x.sessionDate → isoWeek x.sessionDate ≠ isoWeek s.sessionDate

theorem isoWeek_mono {d d' : Date} (h : d ≤ d') : isoWeek d ≤ isoWeek d' :=
  Int.ediv_le_ediv (by decide) (Int.add_le_add_right h 3)

theorem Next.lastOfWeek (h : Next ss a b) (ha : a ∈ ss) (hweek : isoWeek b.sessionDate ≠ isoWeek a.sessionDate) :
    LastOfWeek ss a := by
  refine ⟨ha, fun x hx hlater heq => hweek ?_⟩
  have hle := isoWeek_mono (h.first x hx hlater)
  have hge := isoWeek_mono h.later.le
  exact le_antisymm (heq ▸ hle) hge

/-! ### The execution window -/

/-- The dates in which `execution_window` looks. -/
theorem ahead_iff {d x : Int} : (d + 1 ≤ x ∧ x ≤ d + 1 + lookaroundDays) ↔ d < x ∧ x ≤ d + 15 := by
  unfold lookaroundDays
  omega

/-- The session to trade in is the next one after the date, if it is in sight. -/
theorem nextSession_eq_ok (hss : Increasing ss) {asOf : AwareDatetime} :
    nextSession et (brokerCalendar ss) asOf = .ok b ↔
      b ∈ ss ∧ et asOf.instant < b.sessionDate ∧ b.sessionDate ≤ et asOf.instant + 15 ∧
        ∀ x ∈ ss, et asOf.instant < x.sessionDate → b.sessionDate ≤ x.sessionDate := by
  have hsorted := hss.broker (et asOf.instant + 1) (et asOf.instant + 1 + lookaroundDays)
  have hmem : ∀ x, (x ∈ brokerCalendar ss (et asOf.instant + 1) (et asOf.instant + 1 + lookaroundDays) ∧
      decide (et asOf.instant + 1 ≤ x.sessionDate) = true) ↔
      x ∈ ss ∧ et asOf.instant < x.sessionDate ∧ x.sessionDate ≤ et asOf.instant + 15 := by
    intro x
    rw [mem_brokerCalendar, decide_eq_true_eq, ahead_iff]
    exact ⟨fun h => h.1, fun h => ⟨h, Int.add_one_le_of_lt h.2.1⟩⟩
  unfold nextSession
  dsimp only
  split
  · next hnil =>
    refine ⟨nofun, fun ⟨hb, hlo, hhi, _⟩ => ?_⟩
    have := List.filter_eq_nil_iff.mp hnil b ((hmem b).mpr ⟨hb, hlo, hhi⟩).1
    exact absurd ((hmem b).mpr ⟨hb, hlo, hhi⟩).2 this
  · next s rest hs =>
    obtain ⟨hin, hp, hfirst⟩ := filter_eq_cons hsorted hs
    obtain ⟨hsmem, hlo, hhi⟩ := (hmem s).mp ⟨hin, hp⟩
    have hleast : ∀ x ∈ ss, et asOf.instant < x.sessionDate → s.sessionDate ≤ x.sessionDate := by
      intro x hx hxlo
      by_cases hxhi : x.sessionDate ≤ et asOf.instant + 15
      · obtain ⟨hxin, hxp⟩ := (hmem x).mpr ⟨hx, hxlo, hxhi⟩
        rcases hfirst x hxin hxp with rfl | hlt
        · exact le_rfl
        · exact hlt.le
      · exact hhi.trans (not_le.mp hxhi).le
    constructor
    · intro h
      cases h
      exact ⟨hsmem, hlo, hhi, hleast⟩
    · rintro ⟨hb, hblo, -, hbleast⟩
      rw [hss.eq_of_date hsmem hb (le_antisymm (hleast b hb hblo) (hbleast s hsmem hlo))]

/-! ### The decision time -/

/-- At `now` the session `a` is the last one closed, and `b`, the one after it, is in sight and in another week. -/
structure Decides (et : Int → Date) (ss : List MarketSession) (now : AwareDatetime) (a b : MarketSession) : Prop where
  mem : a ∈ ss
  next : Next ss a b
  week : isoWeek b.sessionDate ≠ isoWeek a.sessionDate
  closed : a.closesAt.instant ≤ now.instant
  waiting : now.instant < b.closesAt.instant
  seen : et now.instant - lookaroundDays ≤ a.sessionDate
  ahead : b.sessionDate ≤ et now.instant + lookaroundDays

/-- The sessions that `weekly_as_of` looks at. -/
theorem mem_around {now : AwareDatetime} : x ∈ brokerCalendar ss (et now.instant - lookaroundDays) (et now.instant + lookaroundDays) ↔
    x ∈ ss ∧ et now.instant - lookaroundDays ≤ x.sessionDate ∧ x.sessionDate ≤ et now.instant + lookaroundDays :=
  mem_brokerCalendar

theorem le_add_lookaround (d : Int) : d ≤ d + lookaroundDays := by
  unfold lookaroundDays
  omega

/-- The session after the last closed one is still in sight when any later session is. -/
theorem decides_of_lists (hss : TradingDays et ss) {now : AwareDatetime}
    {rest : List MarketSession}
    (hlast : ((brokerCalendar ss (et now.instant - lookaroundDays) (et now.instant + lookaroundDays)).filter
      fun s => decide (s.closesAt.instant ≤ now.instant)).getLast? = some a)
    (hnext : (brokerCalendar ss (et now.instant - lookaroundDays) (et now.instant + lookaroundDays)).filter
      (fun s => decide (a.sessionDate < s.sessionDate)) = b :: rest)
    (hweek : isoWeek b.sessionDate ≠ isoWeek a.sessionDate) : Decides et ss now a b := by
  obtain ⟨ha, hclosed, hlatest⟩ := getLast?_filter (hss.dates.broker _ _) hlast
  obtain ⟨hb, hlater, hfirst⟩ := filter_eq_cons (hss.dates.broker _ _) hnext
  obtain ⟨hamem, haseen, -⟩ := mem_around.mp ha
  obtain ⟨hbmem, -, hbahead⟩ := mem_around.mp hb
  rw [decide_eq_true_eq] at hclosed hlater
  refine ⟨hamem, ⟨hbmem, hlater, fun x hx hax => ?_⟩, hweek, hclosed, ?_, haseen, hbahead⟩
  · by_cases hxb : x.sessionDate ≤ b.sessionDate
    · have hxin := mem_around.mpr ⟨hx, haseen.trans hax.le, hxb.trans hbahead⟩
      rcases hfirst x hxin (decide_eq_true hax) with rfl | hlt
      · exact le_rfl
      · exact hlt.le
    · exact (not_le.mp hxb).le
  · by_contra hnow
    rcases hlatest b hb (decide_eq_true (not_lt.mp hnow)) with rfl | hlt
    · exact absurd hlater (lt_irrefl _)
    · exact absurd hlater hlt.asymm

theorem weeklyAsOf_eq_some (hss : TradingDays et ss) (het : Monotone et) {now t : AwareDatetime} :
    weeklyAsOf et (brokerCalendar ss) now = .ok (some t) ↔ ∃ a b, Decides et ss now a b ∧ t = a.closesAt := by
  constructor
  · intro h
    unfold weeklyAsOf at h
    dsimp only at h
    split at h
    · cases h
    · next last hlast =>
      split at h
      · cases h
      · next next rest hnext =>
        split at h
        · cases h
        · next hweek =>
          cases h
          exact ⟨last, next, decides_of_lists hss hlast hnext hweek, rfl⟩
  · rintro ⟨a, b, hd, rfl⟩
    have hatoday : a.sessionDate ≤ et now.instant := hss.closes_on a hd.mem ▸ het hd.closed
    have hain := mem_around.mpr ⟨hd.mem, hd.seen, hatoday.trans (le_add_lookaround _)⟩
    have hbin := mem_around.mpr ⟨hd.next.mem, hd.seen.trans hd.next.later.le, hd.ahead⟩
    unfold weeklyAsOf
    dsimp only
    split
    · next hnone =>
      have hnil := List.getLast?_eq_none_iff.mp hnone
      exact absurd (decide_eq_true hd.closed) (List.filter_eq_nil_iff.mp hnil a hain)
    · next last hlast =>
      obtain ⟨hlin, hlclosed, hlatest⟩ := getLast?_filter (hss.dates.broker _ _) hlast
      have hlmem := (mem_around.mp hlin).1
      rw [decide_eq_true_eq] at hlclosed
      -- a session after `a` comes no earlier than `b`, which is not closed yet
      have hle : last.sessionDate ≤ a.sessionDate := by
        by_contra hgt
        have hbl := hd.next.first last hlmem (not_le.mp hgt)
        rcases hbl.eq_or_lt with heq | hlt
        · rw [hss.dates.eq_of_date hd.next.mem hlmem heq] at hd
          exact absurd (hd.waiting.trans_le hlclosed) (lt_irrefl _)
        · have hlate := hss.close_lt hd.next.mem hlmem hlt
          exact absurd (hd.waiting.trans (hlate.trans_le hlclosed)) (lt_irrefl _)
      obtain rfl : a = last := by
        rcases hlatest a hain (decide_eq_true hd.closed) with heq | hlt
        · exact heq
        · exact absurd hlt (not_lt.mpr hle)
      split
      · next hnil => exact absurd (decide_eq_true hd.next.later) (List.filter_eq_nil_iff.mp hnil b hbin)
      · next next rest hnext =>
        have hweek : isoWeek next.sessionDate ≠ isoWeek a.sessionDate := by
          obtain ⟨hnin, hnlater, hfirst⟩ := filter_eq_cons (hss.dates.broker _ _) hnext
          rw [decide_eq_true_eq] at hnlater
          have hbn := hd.next.first next (mem_around.mp hnin).1 hnlater
          rcases hfirst b hbin (decide_eq_true hd.next.later) with heq | hlt
          · exact heq ▸ hd.week
          · exact absurd hlt (not_lt.mpr hbn)
        rw [if_neg hweek]

theorem windowState_eq_open {now : AwareDatetime} {w : AwareDatetime × AwareDatetime} :
    windowState now w = .open ↔ w.1.instant ≤ now.instant ∧ now.instant < w.2.instant := by
  unfold windowState
  split_ifs with hearly hopen
  · exact ⟨nofun, fun h => absurd hearly (not_lt.mpr h.1)⟩
  · exact ⟨fun _ => ⟨not_lt.mp hearly, hopen⟩, fun _ => rfl⟩
  · exact ⟨nofun, fun h => absurd h.2 hopen⟩

/-- After a decision at the close of `a`, the window is the session `b`, if it is in sight. -/
theorem executionWindow_of_decision (hss : TradingDays et ss) {now : AwareDatetime} (hd : Decides et ss now a b)
    {w : AwareDatetime × AwareDatetime} : executionWindow et (brokerCalendar ss) a.closesAt executionDelay = .ok w ↔
      b.sessionDate ≤ a.sessionDate + 15 ∧ w = (b.opensAt.plus executionDelay, b.closesAt) := by
  have hdate := hss.closes_on a hd.mem
  rw [executionWindow, Except.map_eq_ok]
  constructor
  · rintro ⟨s, hs, rfl⟩
    obtain ⟨hmem, hlo, hhi, hleast⟩ := (nextSession_eq_ok hss.dates).mp hs
    rw [hdate] at hlo hhi hleast
    obtain rfl : s = b := Next.unique hss.dates ⟨hmem, hlo, hleast⟩ hd.next
    exact ⟨hhi, rfl⟩
  · rintro ⟨hhi, rfl⟩
    refine ⟨b, (nextSession_eq_ok hss.dates).mpr ?_, rfl⟩
    rw [hdate]
    exact ⟨hd.next.mem, hd.next.later, hhi, hd.next.first⟩

/-- The window after a decision starts after it and is over by any later decision, before the window of that one. -/
theorem window_between (hss : TradingDays et ss) {now₁ now₂ : AwareDatetime} {a₁ b₁ a₂ b₂ : MarketSession}
    (h₁ : Decides et ss now₁ a₁ b₁) (h₂ : Decides et ss now₂ a₂ b₂) (hlt : a₁.closesAt.instant < a₂.closesAt.instant) :
    a₁.closesAt.instant ≤ b₁.opensAt.instant ∧ b₁.closesAt.instant ≤ a₂.closesAt.instant ∧
      a₂.closesAt.instant ≤ b₂.opensAt.instant := by
  have hdates : a₁.sessionDate < a₂.sessionDate := by
    rcases hss.trichotomy h₁.mem h₂.mem with heq | hab | hba
    · exact absurd hlt (heq ▸ lt_irrefl _)
    · exact hab.1
    · exact absurd hlt (hss.close_lt h₂.mem h₁.mem hba.1).asymm
  refine ⟨hss.lt_of_lt h₁.mem h₁.next.mem h₁.next.later, ?_, hss.lt_of_lt h₂.mem h₂.next.mem h₂.next.later⟩
  rcases (h₁.next.first a₂ h₂.mem hdates).eq_or_lt with heq | hlt
  · rw [hss.dates.eq_of_date h₁.next.mem h₂.mem heq]
  · exact (hss.close_lt h₁.next.mem h₂.mem hlt).le

/-- Every ISO week with a session has a last one. -/
theorem exists_lastOfWeek (hss : Increasing ss) (hx : x ∈ ss) :
    ∃ s, LastOfWeek ss s ∧ isoWeek s.sessionDate = isoWeek x.sessionDate := by
  cases hlast : (ss.filter fun s => decide (isoWeek s.sessionDate = isoWeek x.sessionDate)).getLast? with
  | none =>
    have hnil := List.getLast?_eq_none_iff.mp hlast
    exact absurd (decide_eq_true rfl) (List.filter_eq_nil_iff.mp hnil x hx)
  | some s =>
    obtain ⟨hs, hweek, hlatest⟩ := getLast?_filter hss hlast
    rw [decide_eq_true_eq] at hweek
    refine ⟨s, ⟨hs, fun y hy hlater heq => ?_⟩, hweek⟩
    rcases hlatest y hy (decide_eq_true (heq.trans hweek)) with rfl | hlt
    · exact absurd hlater (lt_irrefl _)
    · exact absurd hlater hlt.asymm

theorem LastOfWeek.unique (hss : Increasing ss) (ha : LastOfWeek ss a) (hb : LastOfWeek ss b)
    (h : isoWeek a.sessionDate = isoWeek b.sessionDate) : a = b := by
  rcases lt_trichotomy a.sessionDate b.sessionDate with hab | hab | hba
  · exact absurd h.symm (ha.2 b hb.1 hab)
  · exact hss.eq_of_date ha.1 hb.1 hab
  · exact absurd h (hb.2 a ha.1 hba)

/-- A session after another one gives a next one. -/
theorem exists_next (hss : Increasing ss) (hx : x ∈ ss) (h : a.sessionDate < x.sessionDate) :
    ∃ b, Next ss a b ∧ b.sessionDate ≤ x.sessionDate := by
  cases hnext : ss.filter fun s => decide (a.sessionDate < s.sessionDate) with
  | nil => exact absurd (decide_eq_true h) (List.filter_eq_nil_iff.mp hnext x hx)
  | cons b rest =>
    obtain ⟨hb, hlater, hfirst⟩ := filter_eq_cons hss hnext
    have hleast : ∀ y ∈ ss, a.sessionDate < y.sessionDate → b.sessionDate ≤ y.sessionDate := fun y hy hay => by
      rcases hfirst y hy (decide_eq_true hay) with rfl | hlt
      · exact le_rfl
      · exact hlt.le
    exact ⟨b, ⟨hb, of_decide_eq_true hlater, hleast⟩, hleast x hx h⟩

/-- Two look-arounds of two weeks see a gap of four. -/
theorem sight_gap {today l n : Int} (hseen : today - lookaroundDays ≤ l) (hahead : n ≤ today + lookaroundDays) : n ≤ l + 28 := by
  unfold lookaroundDays at *
  omega

theorem sight_of_gap {l n : Int} (h : n ≤ l + 28) : n - lookaroundDays - lookaroundDays ≤ l := by
  unfold lookaroundDays
  omega

/-- The close of a week is a decision time iff the next session is at most four weeks away. -/
theorem decided_iff (hss : TradingDays et ss) (het : EasternDates et) (ha : LastOfWeek ss a) :
    (∃ now, weeklyAsOf et (brokerCalendar ss) now = .ok (some a.closesAt)) ↔
      ∃ n ∈ ss, a.sessionDate < n.sessionDate ∧ n.sessionDate ≤ a.sessionDate + 28 := by
  constructor
  · rintro ⟨now, hnow⟩
    obtain ⟨a', b, hd, hclose⟩ := (weeklyAsOf_eq_some hss het.monotone).mp hnow
    have hdate : a.sessionDate = a'.sessionDate := by
      rw [← hss.closes_on a ha.1, ← hss.closes_on a' hd.mem, hclose]
    rw [hdate]
    exact ⟨b, hd.next.mem, hd.next.later, sight_gap hd.seen hd.ahead⟩
  · rintro ⟨n, hn, hlater, hgap⟩
    obtain ⟨b, hb, hbn⟩ := exists_next hss.dates hn hlater
    have hbgap := hbn.trans hgap
    have hdecides : ∀ now : AwareDatetime, a.closesAt.instant ≤ now.instant → now.instant < b.closesAt.instant →
        et now.instant - lookaroundDays ≤ a.sessionDate → b.sessionDate ≤ et now.instant + lookaroundDays →
        ∃ now, weeklyAsOf et (brokerCalendar ss) now = .ok (some a.closesAt) := fun now hclosed hwaiting hseen hahead =>
      ⟨now, (weeklyAsOf_eq_some hss het.monotone).mpr
        ⟨a, b, ⟨ha.1, hb, ha.2 b hb.mem hb.later, hclosed, hwaiting, hseen, hahead⟩, rfl⟩⟩
    have hclose := hss.closes_on a ha.1
    by_cases hnear : b.sessionDate ≤ a.sessionDate + lookaroundDays
    · refine hdecides a.closesAt le_rfl (hss.close_lt ha.1 hb.mem hb.later) ?_ (hclose.symm ▸ hnear)
      rw [hclose]
      exact Int.sub_le_self _ (by decide)
    · -- the first day from which the next session is in sight
      obtain ⟨t, ht⟩ := het.onto (b.sessionDate - lookaroundDays)
      have hafter : a.sessionDate < et t := by
        rw [ht]
        exact Int.lt_sub_right_of_add_lt (not_le.mp hnear)
      refine hdecides ⟨t, 0⟩ ?_ ?_ ?_ ?_
      · by_contra hbefore
        have := het.monotone (not_le.mp hbefore).le
        rw [hclose] at this
        exact absurd hafter (not_lt.mpr this)
      · by_contra hbefore
        have := het.monotone (not_lt.mp hbefore)
        rw [hss.closes_on b hb.mem, ht] at this
        exact absurd this (not_le.mpr (Int.sub_lt_self _ (by decide)))
      · rw [ht]
        exact sight_of_gap hbgap
      · rw [ht, Int.sub_add_cancel]

/-- A decision time is the last close of its week, at most one a week; its window lies between it and any later decision
    time. -/
theorem weekly_windows (hss : TradingDays et ss) (het : EasternDates et) :
    (∀ now₁ now₂ a₁ a₂ : AwareDatetime, weeklyAsOf et (brokerCalendar ss) now₁ = .ok (some a₁) →
      weeklyAsOf et (brokerCalendar ss) now₂ = .ok (some a₂) → a₁.instant < a₂.instant →
      ∀ w₁, executionWindow et (brokerCalendar ss) a₁ executionDelay = .ok w₁ →
        a₁.instant < w₁.1.instant ∧ w₁.2.instant ≤ a₂.instant ∧
        ∀ w₂, executionWindow et (brokerCalendar ss) a₂ executionDelay = .ok w₂ →
          ∀ t, ¬(windowState t w₁ = .open ∧ windowState t w₂ = .open)) ∧
    (∀ now a : AwareDatetime, weeklyAsOf et (brokerCalendar ss) now = .ok (some a) →
      ((∃ w, executionWindow et (brokerCalendar ss) a executionDelay = .ok w) ↔
        ∃ s ∈ ss, et a.instant < s.sessionDate ∧ s.sessionDate ≤ et a.instant + 15)) ∧
    ∀ x ∈ ss, ∃ s, LastOfWeek ss s ∧ isoWeek s.sessionDate = isoWeek x.sessionDate ∧
      (∀ now a, weeklyAsOf et (brokerCalendar ss) now = .ok (some a) → isoWeek (et a.instant) = isoWeek x.sessionDate →
        a = s.closesAt) ∧
      ((∃ now, weeklyAsOf et (brokerCalendar ss) now = .ok (some s.closesAt)) ↔
        ∃ n ∈ ss, s.sessionDate < n.sessionDate ∧ n.sessionDate ≤ s.sessionDate + 28) := by
  refine ⟨fun now₁ now₂ t₁ t₂ h₁ h₂ hlt w₁ hw₁ => ?_, fun now t h => ?_, fun x hx => ?_⟩
  · obtain ⟨a₁, b₁, hd₁, rfl⟩ := (weeklyAsOf_eq_some hss het.monotone).mp h₁
    obtain ⟨a₂, b₂, hd₂, rfl⟩ := (weeklyAsOf_eq_some hss het.monotone).mp h₂
    obtain ⟨-, rfl⟩ := (executionWindow_of_decision hss hd₁).mp hw₁
    obtain ⟨hstart, hend, hnext⟩ := window_between hss hd₁ hd₂ hlt
    refine ⟨hstart.trans_lt (Int.lt_add_of_pos_right _ (by decide)), hend, fun w₂ hw₂ t ⟨ho₁, ho₂⟩ => ?_⟩
    obtain ⟨-, rfl⟩ := (executionWindow_of_decision hss hd₂).mp hw₂
    -- the first window is over at `a₂`, the second starts after it
    have hover := (windowState_eq_open.mp ho₁).2.trans_le hend
    have hbegun := (Int.lt_add_of_pos_right _ (by decide : 0 < executionDelay)).trans_le (windowState_eq_open.mp ho₂).1
    exact absurd (hnext.trans hbegun.le) (not_le.mpr hover)
  · obtain ⟨a, b, hd, rfl⟩ := (weeklyAsOf_eq_some hss het.monotone).mp h
    rw [hss.closes_on a hd.mem]
    constructor
    · rintro ⟨w, hw⟩
      exact ⟨b, hd.next.mem, hd.next.later, ((executionWindow_of_decision hss hd).mp hw).1⟩
    · rintro ⟨s, hs, hlater, hnear⟩
      exact ⟨_, (executionWindow_of_decision hss hd).mpr ⟨(hd.next.first s hs hlater).trans hnear, rfl⟩⟩
  · obtain ⟨s, hs, hweek⟩ := exists_lastOfWeek hss.dates hx
    refine ⟨s, hs, hweek, fun now t h hsame => ?_, decided_iff hss het hs⟩
    obtain ⟨a, b, hd, rfl⟩ := (weeklyAsOf_eq_some hss het.monotone).mp h
    rw [hss.closes_on a hd.mem] at hsame
    rw [LastOfWeek.unique hss.dates (hd.next.lastOfWeek hd.mem hd.week) hs (hsame.trans hweek.symm)]

end Days

/-! ### Winter calendars -/

/-- The Eastern date in winter. -/
def eastern (t : Int) : Date := (t - 18000000000) / 86400000000

theorem eastern_dates : EasternDates eastern where
  monotone _ _ h := Int.ediv_le_ediv (by decide) (Int.sub_le_sub_right h _)
  onto d := ⟨d * 86400000000 + 18000000000, by
    rw [eastern, Int.add_sub_cancel]
    exact Int.mul_ediv_cancel _ (by decide)⟩

/-- A session from half past nine to four. -/
def tradingDay (day : Int) : MarketSession :=
  ⟨day, ⟨day * 86400000000 + 52200000000, 0⟩, ⟨day * 86400000000 + 75600000000, 0⟩, by
    simp only
    omega⟩

theorem eastern_tradingDay (day : Int) : eastern (tradingDay day).opensAt.instant = day ∧
    eastern (tradingDay day).closesAt.instant = day := by
  have hopens : (day * 86400000000 + 52200000000 - 18000000000) / 86400000000 = day := by omega
  have hcloses : (day * 86400000000 + 75600000000 - 18000000000) / 86400000000 = day := by omega
  exact ⟨hopens, hcloses⟩

theorem tradingDays_map (days : List Int) (h : days.Pairwise (· < ·)) : TradingDays eastern (days.map tradingDay) where
  increasing := by
    refine List.pairwise_map.mpr (h.imp fun {a b} hab => ⟨hab, ?_⟩)
    simp only [tradingDay]
    omega
  opens_on s hs := by
    obtain ⟨d, -, rfl⟩ := List.mem_map.mp hs
    exact (eastern_tradingDay d).1
  closes_on s hs := by
    obtain ⟨d, -, rfl⟩ := List.mem_map.mp hs
    exact (eastern_tradingDay d).2

/-- Two Fridays, each with the Monday after it. -/
theorem weekly_windows_mondays : (tradingDay 4).closesAt.instant ≤ (tradingDay 8).closesAt.instant :=
  ((weekly_windows (tradingDays_map [1, 4, 8, 11] (by decide)) eastern_dates).1
    (tradingDay 1).closesAt (tradingDay 8).closesAt (tradingDay 1).closesAt (tradingDay 8).closesAt (by decide) (by decide)
    (by decide) ((tradingDay 4).opensAt.plus executionDelay, (tradingDay 4).closesAt) (by decide)).2.1

/-- A week before a closure of forty days has no decision time. -/
theorem closure_without_decision : TradingDays eastern ([1, 41].map tradingDay) ∧
    ∀ now a, weeklyAsOf eastern (brokerCalendar ([1, 41].map tradingDay)) now = .ok (some a) →
      isoWeek (eastern a.instant) ≠ isoWeek (tradingDay 1).sessionDate := by
  have hss : TradingDays eastern ([1, 41].map tradingDay) := tradingDays_map [1, 41] (by decide)
  refine ⟨hss, fun now t h hweek => ?_⟩
  obtain ⟨a, b, hd, rfl⟩ := (weeklyAsOf_eq_some hss eastern_dates.monotone).mp h
  rw [hss.closes_on a hd.mem] at hweek
  have ha : a = tradingDay 1 := by
    have hmem := hd.mem
    simp only [List.map_cons, List.map_nil, List.mem_cons, List.not_mem_nil, or_false] at hmem
    rcases hmem with rfl | rfl
    · rfl
    · exact absurd hweek (by decide)
  subst ha
  obtain ⟨n, hn, hlater, hnear⟩ := (decided_iff hss eastern_dates (hd.next.lastOfWeek hd.mem hd.week)).mp ⟨now, h⟩
  simp only [List.map_cons, List.map_nil, List.mem_cons, List.not_mem_nil, or_false] at hn
  rcases hn with rfl | rfl
  · exact absurd hlater (lt_irrefl _)
  · exact absurd hnear (by decide)

end Schedule
end AsymmetricCommittee
