import AsymmetricCommittee.Theorems.CalendarView
import AsymmetricCommittee.Contracts.Samples

/-! A calendar that builds is the one that was covered. Of the rows that cover a date the newest stands for its
    range, so its digest is checked against the versions visible to it; these end with the version that the
    calendar shows. No query answers for a date that no row covers. -/

namespace AsymmetricCommittee
namespace CalendarRules
open TradingCalendar

variable {sha256 : String → Sha256Hex} {ss : List TradingSession} {cs : List CalendarCoverage} {cal : TradingCalendar}
  {c : CalendarCoverage} {s : TradingSession} {d : Date}

/-- The rows that cover a date. -/
def covering (cs : List CalendarCoverage) (d : Date) : List CalendarCoverage :=
  cs.filter fun c => decide (c.rangeStart ≤ d ∧ d ≤ c.rangeEnd)

/-- The newest row that covers a date: the first with the greatest `(available_at, source_version)`. -/
def newestCovering (cs : List CalendarCoverage) (d : Date) : Option CalendarCoverage :=
  (covering cs d).argmax coverageKey

/-- The digest is of these sessions and of no others. -/
def HashedExactly (sha256 : String → Sha256Hex) (hash : Sha256Hex) (hashed : List TradingSession) : Prop :=
  calendarHash sha256 hashed = hash ∧
    ∀ other, calendarHash sha256 other = hash → (other.map lineFields).Perm (hashed.map lineFields)

/-! ### The newest of some -/

/-- The first greatest of a list that passes a test is the first greatest of those that pass. -/
theorem argmax_filter {α β : Type*} [LinearOrder β] {f : α → β} {p : α → Bool} {l : List α} {m : α}
    (h : l.argmax f = some m) (hp : p m = true) : (l.filter p).argmax f = some m := by
  induction l using List.reverseRecOn generalizing m with
  | nil => cases h
  | append_singleton l a ih =>
    rw [List.argmax_concat] at h
    rw [List.filter_append]
    cases hl : l.argmax f with
    | none =>
      rw [hl] at h
      cases h
      rw [List.argmax_eq_none.mp hl, List.filter_nil, List.nil_append, List.filter_cons_of_pos hp]
      rfl
    | some c =>
      simp only [hl] at h
      split at h
      · next hlt =>
        cases h
        rw [List.filter_cons_of_pos hp, List.filter_nil, List.argmax_concat]
        cases hf : (l.filter p).argmax f with
        | none => rfl
        | some x =>
          have hx := List.le_of_mem_argmax (List.mem_of_mem_filter (List.argmax_mem hf)) hl
          exact if_pos (hx.trans_lt hlt)
      · next hlt =>
        cases h
        by_cases ha : p a = true
        · rw [List.filter_cons_of_pos ha, List.filter_nil, List.argmax_concat, ih hl hp]
          exact if_neg hlt
        · rw [List.filter_cons_of_neg ha, List.filter_nil, List.append_nil, ih hl hp]

/-- What stands for a range is the first of its rows with the greatest key. -/
theorem get?_byRange_eq_argmax (cs : List CalendarCoverage) (k : Label × Date × Date) :
    (byRange cs).get? k = (cs.filter fun c => decide ((c.source, c.rangeStart, c.rangeEnd) = k)).argmax coverageKey := by
  induction cs using List.reverseRecOn with
  | nil => rfl
  | append_singleton l x ih =>
    rw [byRange_append, List.filter_append]
    by_cases hk : (x.source, x.rangeStart, x.rangeEnd) = k
    · have hfilter : [x].filter (fun c => decide ((c.source, c.rangeStart, c.rangeEnd) = k)) = [x] := by simp [hk]
      rw [hfilter, List.argmax_concat, ← ih, hk]
      cases hget : (byRange l).get? k with
      | none => simp only [Dict.get?_set, if_pos]
      | some e =>
        simp only
        split
        · rw [Dict.get?_set, if_pos rfl]
        · exact hget
    · have hfilter : [x].filter (fun c => decide ((c.source, c.rangeStart, c.rangeEnd) = k)) = [] := by simp [hk]
      rw [hfilter, List.append_nil, ← ih]
      have hne : ¬k = (x.source, x.rangeStart, x.rangeEnd) := fun h => hk h.symm
      split
      · rw [Dict.get?_set, if_neg hne]
      · split
        · rw [Dict.get?_set, if_neg hne]
        · rfl

theorem mem_covering : c ∈ covering cs d ↔ c ∈ cs ∧ c.rangeStart ≤ d ∧ d ≤ c.rangeEnd := by
  simp [covering]

/-- The newest row that covers a date stands for its range. -/
theorem newestCovering_chosen (h : newestCovering cs d = some c) : c ∈ (byRange cs).values := by
  have hcovers := (mem_covering.mp (List.argmax_mem h)).2
  refine Dict.mem_values.mpr ⟨(c.source, c.rangeStart, c.rangeEnd), ?_⟩
  have hrows : (covering cs d).filter (fun x => decide ((x.source, x.rangeStart, x.rangeEnd) = (c.source, c.rangeStart, c.rangeEnd))) =
      cs.filter fun x => decide ((x.source, x.rangeStart, x.rangeEnd) = (c.source, c.rangeStart, c.rangeEnd)) := by
    rw [covering, List.filter_filter]
    refine List.filter_congr fun x _ => ?_
    by_cases hx : (x.source, x.rangeStart, x.rangeEnd) = (c.source, c.rangeStart, c.rangeEnd)
    · obtain ⟨-, hstart, hend⟩ : x.source = c.source ∧ x.rangeStart = c.rangeStart ∧ x.rangeEnd = c.rangeEnd := by
        simpa using hx
      simp [hstart, hend, hcovers]
    · simp [hx]
  rw [get?_byRange_eq_argmax, ← hrows]
  exact argmax_filter h (decide_eq_true rfl)

/-! ### What a calendar that builds shows -/

/-- What is shown of a date with versions: the newest, as old as some chosen row of the date, or nothing when no
    chosen row covers it. -/
def Shows (chosen : List CalendarCoverage) (e : Date × List TradingSession) (shown : Option TradingSession) : Prop :=
  (∃ newest, latest e.2 = some newest ∧ shown = some newest ∧
      ∃ c ∈ covering chosen e.1, newest.availableAt.instant ≤ c.availableAt.instant) ∨
    (covering chosen e.1 = [] ∧ shown = none)

theorem effectiveStep_eq_ok {chosen : List CalendarCoverage} {eff eff' : Dict Date TradingSession}
    {e : Date × List TradingSession} (hne : e.2 ≠ []) (h : effectiveStep chosen eff e = .ok eff') :
    (∃ newest, latest e.2 = some newest ∧ eff' = eff.set e.1 newest ∧
      ∃ c ∈ covering chosen e.1, newest.availableAt.instant ≤ c.availableAt.instant) ∨
    (covering chosen e.1 = [] ∧ eff' = eff) := by
  unfold effectiveStep at h
  simp only at h
  split at h
  · next newest available hlatest hmax =>
    obtain ⟨hmem, -⟩ := List.max?_eq_some_iff.mp hmax
    obtain ⟨c, hc, rfl⟩ := List.mem_map.mp hmem
    split at h
    · cases h
    · next hle =>
      cases h
      exact Or.inl ⟨newest, hlatest, rfl, c, hc, not_lt.mp hle⟩
  · next hno =>
    cases h
    refine Or.inr ⟨?_, rfl⟩
    obtain ⟨newest, hnewest⟩ := Option.ne_none_iff_exists'.mp
      (fun hnone => hne (List.argmax_eq_none.mp hnone) : latest e.2 ≠ none)
    cases hmax : ((covering chosen e.1).map fun c => c.availableAt.instant).max? with
    | none => exact List.map_eq_nil_iff.mp (List.max?_eq_none_iff.mp hmax)
    | some available => exact absurd hmax (hno newest available hnewest)

theorem effective_eq_ok {chosen : List CalendarCoverage} {l : List (Date × List TradingSession)}
    (hn : (l.map Prod.fst).Nodup) (hne : ∀ e ∈ l, e.2 ≠ []) {eff eff' : Dict Date TradingSession}
    (h : l.foldlM (effectiveStep chosen) eff = .ok eff') (hnone : ∀ e ∈ l, eff.get? e.1 = none) :
    (∀ e ∈ l, Shows chosen e (eff'.get? e.1)) ∧ ∀ d, d ∉ l.map Prod.fst → eff'.get? d = eff.get? d := by
  induction l generalizing eff with
  | nil =>
    cases h
    exact ⟨fun e he => absurd he List.not_mem_nil, fun d _ => rfl⟩
  | cons e l ih =>
    obtain ⟨hnot, hn⟩ := List.nodup_cons.mp hn
    obtain ⟨eff₁, h₁, h⟩ := Except.bind_eq_ok.mp h
    have hother : ∀ d, d ≠ e.1 → eff₁.get? d = eff.get? d := by
      intro d hd
      rcases effectiveStep_eq_ok (hne e List.mem_cons_self) h₁ with ⟨newest, -, rfl, -⟩ | ⟨-, rfl⟩
      · rw [Dict.get?_set, if_neg hd]
      · rfl
    have hdate : ∀ x ∈ l, x.1 ≠ e.1 := fun x hx hxe => hnot (hxe ▸ List.mem_map_of_mem hx)
    obtain ⟨hshows, hrest⟩ := ih hn (fun x hx => hne x (List.mem_cons_of_mem e hx)) h fun x hx => by
      rw [hother x.1 (hdate x hx)]
      exact hnone x (List.mem_cons_of_mem e hx)
    refine ⟨fun x hx => ?_, fun d hd => ?_⟩
    · rcases List.mem_cons.mp hx with rfl | hx
      · rw [hrest x.1 hnot]
        rcases effectiveStep_eq_ok (hne x List.mem_cons_self) h₁ with ⟨newest, hlatest, rfl, hc⟩ | ⟨hc, rfl⟩
        · exact Or.inl ⟨newest, hlatest, by rw [Dict.get?_set, if_pos rfl], hc⟩
        · exact Or.inr ⟨hc, hnone x List.mem_cons_self⟩
      · exact hshows x hx
    · rw [List.map_cons, List.mem_cons, not_or] at hd
      rw [hrest d hd.2, hother d hd.1]

/-- What a calendar that builds says of a date, from the rows. -/
structure Built (sha256 : String → Sha256Hex) (ss : List TradingSession) (cs : List CalendarCoverage)
    (cal : TradingCalendar) : Prop where
  ranges : ∀ r, r ∈ cal.ranges ↔ ∃ c ∈ cs, (c.rangeStart, c.rangeEnd) = r
  checked : ∀ c ∈ (byRange cs).values, calendarHash sha256 (current (versions ss) c) = c.sessionsSha256
  shown : ∀ d, (ss.filter fun s => decide (s.sessionDate = d)) ≠ [] →
    Shows (byRange cs).values (d, ss.filter fun s => decide (s.sessionDate = d)) (cal.sessions.get? d)
  hidden : ∀ d, (ss.filter fun s => decide (s.sessionDate = d)) = [] → cal.sessions.get? d = none

theorem buildCalendar_eq_ok (h : buildCalendar sha256 ss cs = .ok cal) : Built sha256 ss cs cal := by
  obtain ⟨us, hus, h⟩ := Except.bind_eq_ok.mp h
  obtain ⟨eff, heff, h⟩ := Except.bind_eq_ok.mp h
  cases h
  have hne : ∀ e ∈ (versions ss).entries, e.2 ≠ [] := fun e he => (mem_versions he).2
  obtain ⟨hshows, hrest⟩ := effective_eq_ok (versions ss).nodup hne heff fun e _ => Dict.get?_empty e.1
  refine ⟨fun r => ?_, fun c hc => ?_, fun d hd => ?_, fun d hd => ?_⟩
  · rw [(List.perm_insertionSort _ _).mem_iff, List.mem_dedup, List.mem_map]
    constructor
    · rintro ⟨c, hc, rfl⟩
      obtain ⟨k, hk⟩ := Dict.mem_values.mp hc
      exact ⟨c, (get?_byRange hk).1, rfl⟩
    · rintro ⟨c, hc, rfl⟩
      obtain ⟨e, he, -⟩ := exists_byRange hc
      have hkey := Prod.mk.inj (get?_byRange he).2
      exact ⟨e, Dict.mem_values.mpr ⟨_, he⟩, hkey.2.symm⟩
  · obtain ⟨u, -, hu⟩ := Forall₂.exists_of_mem_left (Except.mapM_eq_ok.mp hus) hc
    unfold checkCoverage at hu
    split at hu
    · cases hu
    · next hcheck => exact not_not.mp (not_or.mp hcheck).2
  · have hmem : (d, ss.filter fun s => decide (s.sessionDate = d)) ∈ (versions ss).entries :=
      Dict.get?_eq_some.mp ((get?_versions ss d).trans (if_neg hd))
    exact hshows _ hmem
  · refine (hrest d fun hd' => ?_).trans (Dict.get?_empty d)
    obtain ⟨e, he, rfl⟩ := List.mem_map.mp hd'
    have hvs := mem_versions he
    exact hvs.2 (hvs.1.trans hd)

theorem Built.status_uncovered (h : Built sha256 ss cs cal) : cal.status d = .uncovered ↔ newestCovering cs d = none := by
  have hany : (cal.ranges.any fun r => decide (r.1 ≤ d ∧ d ≤ r.2)) = true ↔ covering cs d ≠ [] := by
    rw [List.any_eq_true, ← List.length_pos_iff, List.length_pos_iff_exists_mem]
    constructor
    · rintro ⟨r, hr, hd⟩
      obtain ⟨c, hc, rfl⟩ := (h.ranges r).mp hr
      exact ⟨c, mem_covering.mpr ⟨hc, of_decide_eq_true hd⟩⟩
    · rintro ⟨c, hc⟩
      obtain ⟨hc, hd⟩ := mem_covering.mp hc
      exact ⟨_, (h.ranges _).mpr ⟨c, hc, rfl⟩, decide_eq_true hd⟩
  rw [newestCovering, List.argmax_eq_none, TradingCalendar.status]
  by_cases hcov : covering cs d = []
  · have hno : ¬(cal.ranges.any fun r => decide (r.1 ≤ d ∧ d ≤ r.2)) = true := fun ht => hany.mp ht hcov
    rw [if_neg hno]
    exact ⟨fun _ => hcov, fun _ => rfl⟩
  · rw [if_pos (hany.mpr hcov)]
    refine ⟨fun hs => ?_, fun hc => absurd hc hcov⟩
    split at hs <;> cases hs

/-- Inside the covered ranges the shown session is, version and times, the one the newest row hashed. -/
theorem Built.of_newest (h : Built sha256 ss cs cal) (hc : newestCovering cs d = some c) {hashed : List TradingSession}
    (hhash : HashedExactly sha256 c.sessionsSha256 hashed) :
    (cal.status d = .open ∧ ∃ s, cal.session d = .ok s ∧ s.sessionDate = d ∧ ∃ t ∈ hashed, lineFields t = lineFields s) ∨
    (cal.status d = .closed ∧ cal.session d = .error (.notASession d) ∧ ∀ t ∈ hashed, t.sessionDate ≠ d) := by
  have hchosen := newestCovering_chosen hc
  obtain ⟨hmem, hd⟩ := mem_covering.mp (List.argmax_mem hc)
  have hlines := hhash.2 _ (h.checked c hchosen)
  have hranges : (cal.ranges.any fun r => decide (r.1 ≤ d ∧ d ≤ r.2)) = true :=
    List.any_eq_true.mpr ⟨_, (h.ranges _).mpr ⟨c, hmem, rfl⟩, decide_eq_true hd⟩
  have hstatus : cal.status d = if (cal.sessions.get? d).isSome then .open else .closed := if_pos hranges
  -- what the row hashed on the date is what was current there
  have hcurrent : ∀ t ∈ hashed, ∃ s ∈ current (versions ss) c, lineFields s = lineFields t := by
    intro t ht
    obtain ⟨s, hs, heq⟩ := List.mem_map.mp (hlines.mem_iff.mpr (List.mem_map_of_mem ht))
    exact ⟨s, hs, heq⟩
  by_cases hvs : (ss.filter fun s => decide (s.sessionDate = d)) = []
  · have hnone := h.hidden d hvs
    rw [hnone] at hstatus
    refine Or.inr ⟨hstatus, by rw [TradingCalendar.session, hstatus]; rfl, fun t ht htd => ?_⟩
    obtain ⟨s, hs, heq⟩ := hcurrent t ht
    have hdate : s.sessionDate = d := (congrArg Prod.fst heq).trans htd
    obtain ⟨e, he, hlatest⟩ := List.mem_filterMap.mp hs
    split at hlatest
    · have hsmem := (List.mem_filter.mp (List.argmax_mem hlatest)).1
      rw [(mem_versions he).1] at hsmem
      have hmem : s ∈ ss.filter fun s => decide (s.sessionDate = d) :=
        List.mem_filter.mpr ⟨(List.mem_filter.mp hsmem).1, decide_eq_true hdate⟩
      rw [hvs] at hmem
      exact absurd hmem List.not_mem_nil
    · cases hlatest
  · rcases h.shown d hvs with ⟨newest, hlatest, hshown, c', hc', hle⟩ | ⟨hnil, -⟩
    · have hvisible : latest ((ss.filter fun s => decide (s.sessionDate = d)).filter fun s =>
          decide (s.availableAt.instant ≤ c.availableAt.instant)) = some newest := by
        obtain ⟨hc', hd'⟩ := mem_covering.mp hc'
        obtain ⟨k, hk⟩ := Dict.mem_values.mp hc'
        have hcov' : c' ∈ covering cs d := mem_covering.mpr ⟨(get?_byRange hk).1, hd'⟩
        exact argmax_filter hlatest
          (decide_eq_true (hle.trans (coverageKey_le (List.le_of_mem_argmax hcov' hc))))
      have hentry : (d, ss.filter fun s => decide (s.sessionDate = d)) ∈ (versions ss).entries :=
        Dict.get?_eq_some.mp ((get?_versions ss d).trans (if_neg hvs))
      have hcur : newest ∈ current (versions ss) c :=
        List.mem_filterMap.mpr ⟨_, hentry, (if_pos hd).trans hvisible⟩
      have hdate : newest.sessionDate = d := of_decide_eq_true (List.mem_filter.mp (List.argmax_mem hlatest)).2
      obtain ⟨t, ht, heq⟩ := List.mem_map.mp (hlines.mem_iff.mp (List.mem_map_of_mem hcur))
      rw [hshown] at hstatus
      refine Or.inl ⟨hstatus, newest, ?_, hdate, t, ht, heq⟩
      rw [TradingCalendar.session, hstatus]
      simp only [Option.isSome_some, if_true, hshown]
    · have hself : c ∈ covering (byRange cs).values d := mem_covering.mpr ⟨hchosen, hd⟩
      rw [show covering (byRange cs).values d = [] from hnil] at hself
      exact absurd hself List.not_mem_nil

/-! ### Walks over dates -/

/-- A walk that ends has passed over covered dates only. -/
theorem walk_eq_ok {day direction : Int} {n : Nat} {cursor result : Date}
    (h : cal.walk day direction n cursor = .ok result) :
    ∃ k : Nat, result = cursor + (k + 1) * direction ∧
      ∀ i : Nat, i ≤ k → cal.status (cursor + (i + 1) * direction) ≠ .uncovered := by
  induction n generalizing cursor with
  | zero => cases h
  | succ n ih =>
    unfold walk at h
    cases hs : cal.status (cursor + direction) with
    | uncovered => rw [hs] at h; cases h
    | «open» =>
      rw [hs] at h
      cases h
      refine ⟨0, by simp, fun i hi => ?_⟩
      rw [Nat.le_zero.mp hi]
      simp [hs]
    | closed =>
      rw [hs] at h
      obtain ⟨k, rfl, hcov⟩ := ih h
      refine ⟨k + 1, by push_cast; ring, fun i hi => ?_⟩
      cases i with
      | zero => simp [hs]
      | succ i =>
        have := hcov i (by omega)
        rwa [show cursor + (((i + 1 : Nat) : Int) + 1) * direction = cursor + direction + (i + 1) * direction by
          push_cast; ring]

theorem nextSession_covered {day x d : Int} (h : cal.nextSession day = .ok x) (hd : day < d ∧ d ≤ x) :
    cal.status d ≠ .uncovered := by
  obtain ⟨k, rfl, hcov⟩ := walk_eq_ok h
  have hi := hcov (d - day - 1).toNat (by omega)
  rwa [show day + (((d - day - 1).toNat : Int) + 1) * 1 = d by omega] at hi

theorem previousSession_covered {day x d : Int} (h : cal.previousSession day = .ok x) (hd : x ≤ d ∧ d < day) :
    cal.status d ≠ .uncovered := by
  obtain ⟨k, rfl, hcov⟩ := walk_eq_ok h
  have hi := hcov (day - d - 1).toNat (by omega)
  rwa [show day + (((day - d - 1).toNat : Int) + 1) * (-1) = d by omega] at hi

theorem advance_covered {n : Nat} {cursor x d : Int} (h : cal.advance n cursor = .ok x) (hd : cursor < d ∧ d ≤ x) :
    cal.status d ≠ .uncovered := by
  induction n generalizing cursor with
  | zero =>
    cases h
    omega
  | succ n ih =>
    obtain ⟨next, hnext, h⟩ := Except.bind_eq_ok.mp h
    by_cases hle : d ≤ next
    · exact nextSession_covered hnext ⟨hd.1, hle⟩
    · exact ih h ⟨not_le.mp hle, hd.2⟩

theorem session_eq_ok {day : Date} (h : cal.session day = .ok s) :
    cal.status day ≠ .uncovered ∧ cal.sessions.get? day = some s := by
  unfold TradingCalendar.session at h
  cases hs : cal.status day with
  | uncovered => rw [hs] at h; cases h
  | closed => rw [hs] at h; cases h
  | «open» =>
    rw [hs] at h
    simp only at h
    cases hget : cal.sessions.get? day with
    | none => rw [hget] at h; cases h
    | some x => rw [hget] at h; cases h; exact ⟨nofun, rfl⟩

theorem walkClosing_eq_ok {instant : Int} {n : Nat} {day : Int} (h : cal.walkClosing instant n day = .ok s) :
    ∃ k : Nat, cal.sessions.get? (day + k) = some s ∧ ∀ i : Nat, i ≤ k → cal.status (day + i) ≠ .uncovered := by
  induction n generalizing day with
  | zero => cases h
  | succ n ih =>
    have hlater : cal.status day ≠ .uncovered → cal.walkClosing instant n (day + 1) = .ok s →
        ∃ k : Nat, cal.sessions.get? (day + k) = some s ∧ ∀ i : Nat, i ≤ k → cal.status (day + i) ≠ .uncovered := by
      intro hday h
      obtain ⟨k, hk, hcov⟩ := ih h
      refine ⟨k + 1, ?_, fun i hi => ?_⟩
      · rwa [show day + ((k + 1 : Nat) : Int) = day + 1 + k by omega]
      · cases i with
        | zero => simpa using hday
        | succ i =>
          have hi' := hcov i (by omega)
          rwa [show day + ((i + 1 : Nat) : Int) = day + 1 + i by omega]
    unfold walkClosing at h
    cases hs : cal.status day with
    | uncovered => rw [hs] at h; cases h
    | closed =>
      rw [hs] at h
      exact hlater (by rw [hs]; exact nofun) h
    | «open» =>
      rw [hs] at h
      simp only at h
      cases hget : cal.sessions.get? day with
      | none =>
        rw [hget] at h
        exact hlater (by rw [hs]; exact nofun) h
      | some x =>
        rw [hget] at h
        simp only at h
        split at h
        · cases h
          refine ⟨0, by simpa using hget, fun i hi => ?_⟩
          rw [Nat.le_zero.mp hi]
          simp [hs]
        · exact hlater (by rw [hs]; exact nofun) h

theorem sessionClosingAfter_eq_ok {instant : AwareDatetime} {day : Int} (h : cal.sessionClosingAfter instant day = .ok s) :
    ∃ e : Int, cal.sessions.get? e = some s ∧ ∀ d : Int, day ≤ d ∧ d ≤ e → cal.status d ≠ .uncovered := by
  obtain ⟨k, hget, hcov⟩ := walkClosing_eq_ok h
  refine ⟨day + k, hget, fun d hd => ?_⟩
  have hi := hcov (d - day).toNat (by omega)
  rwa [show day + ((d - day).toNat : Int) = d by omega] at hi

theorem Built.sessionDate (h : Built sha256 ss cs cal) (hget : cal.sessions.get? d = some s) : s.sessionDate = d := by
  by_cases hvs : (ss.filter fun s => decide (s.sessionDate = d)) = []
  · rw [h.hidden d hvs] at hget
    cases hget
  · rcases h.shown d hvs with ⟨newest, hlatest, hshown, -⟩ | ⟨-, hnone⟩
    · rw [hshown] at hget
      cases hget
      exact of_decide_eq_true (List.mem_filter.mp (List.argmax_mem hlatest)).2
    · rw [hnone] at hget
      cases hget

/-- No query of the calendar answers for the date: its status is unknown, its session is refused, and no walk
    ends on it or passes over it. -/
structure Unanswered (cal : TradingCalendar) (d : Date) : Prop where
  status : cal.status d = .uncovered
  session : cal.session d = .error (.uncovered d)
  next : ∀ day x, cal.nextSession day = .ok x → ¬(day < d ∧ d ≤ x)
  previous : ∀ day x, cal.previousSession day = .ok x → ¬(x ≤ d ∧ d < day)
  entry : ∀ day x, cal.d0 day = .ok x → ¬(day ≤ d ∧ d ≤ x)
  horizon : ∀ day n x, cal.horizonSession day n = .ok x → ¬(day ≤ d ∧ d ≤ x)
  closing : ∀ instant day s, cal.sessionClosingAfter instant day = .ok s → ¬(day ≤ d ∧ d ≤ s.sessionDate)

theorem Built.unanswered {d : Int} (h : Built sha256 ss cs cal) (hstatus : cal.status d = .uncovered) : Unanswered cal d where
  status := hstatus
  session := by rw [TradingCalendar.session, hstatus]
  next day x hx hd := nextSession_covered hx hd hstatus
  previous day x hx hd := previousSession_covered hx hd hstatus
  entry day x hx hd := by
    obtain ⟨s, hs, hx⟩ := Except.bind_eq_ok.mp hx
    obtain ⟨hcov, hget⟩ := session_eq_ok hs
    rw [h.sessionDate hget] at hx
    rcases hd.1.eq_or_lt with rfl | hlt
    · exact hcov hstatus
    · exact nextSession_covered hx ⟨hlt, hd.2⟩ hstatus
  horizon day n x hx hd := by
    unfold horizonSession at hx
    split at hx
    · cases hx
    · split at hx
      · cases hx
      · next s hs =>
        obtain ⟨hcov, hget⟩ := session_eq_ok hs
        rw [h.sessionDate hget] at hx
        split at hx
        · cases hx
        · next hadvance =>
          cases hx
          rcases hd.1.eq_or_lt with rfl | hlt
          · exact hcov hstatus
          · exact advance_covered hadvance ⟨hlt, hd.2⟩ hstatus
  closing instant day s hs hd := by
    obtain ⟨e, hget, hcov⟩ := sessionClosingAfter_eq_ok hs
    rw [h.sessionDate hget] at hd
    exact hcov d hd hstatus

/-! ### The calendar and its coverage -/

/-- A calendar that builds shows a covered date as the newest row of the date hashed it, open with that session
    or closed, and answers nothing about a date that no row covers. -/
theorem buildCalendar_covered (hbuild : buildCalendar sha256 ss cs = .ok cal) (d : Date) :
    (∀ c hashed, newestCovering cs d = some c → HashedExactly sha256 c.sessionsSha256 hashed →
      (cal.status d = .open ∧ ∃ s, cal.session d = .ok s ∧ s.sessionDate = d ∧ ∃ t ∈ hashed, lineFields t = lineFields s) ∨
      (cal.status d = .closed ∧ cal.session d = .error (.notASession d) ∧ ∀ t ∈ hashed, t.sessionDate ≠ d)) ∧
    (newestCovering cs d = none → Unanswered cal d) := by
  have hbuilt := buildCalendar_eq_ok hbuild
  exact ⟨fun c hashed hc hhash => hbuilt.of_newest hc hhash, fun hnone => hbuilt.unanswered (hbuilt.status_uncovered.mpr hnone)⟩

/-- A row that covers a weekend without a session. -/
def weekendCoverage : CalendarCoverage where
  source := ⟨"alpaca_calendar", Samples.label_calendar⟩
  rangeStart := 19785
  rangeEnd := 19786
  availableAt := ⟨0, 0⟩
  sessionCount := 0
  sessionsSha256 := ⟨"e3b0c44298fc1c149afbf4c8996fb92427ae41e4649b934ca495991b7852b855", Samples.sha256_empty⟩
  sourceVersion := ⟨"cov1", by decide⟩
  ordered := by decide

/-- A digest that tells the empty text from every other. -/
def emptyDigest (text : String) : Sha256Hex :=
  if text = "" then weekendCoverage.sessionsSha256
  else ⟨"0000000000000000000000000000000000000000000000000000000000000000", Samples.sha256_zeros⟩

theorem calendarText_eq_empty {l : List TradingSession} (h : calendarText l = "") : l = [] := by
  have hempty : List.intercalate ['\n'] (calendarLines l) = [] := by
    rw [← String.toList_inj, calendarText, String.toList_intercalate, List.map_map] at h
    exact h
  cases hl : calendarLines l with
  | nil =>
    have hlen := congrArg List.length hl
    rw [calendarLines, List.length_map, (List.perm_insertionSort _ l).length_eq] at hlen
    exact List.length_eq_zero_iff.mp hlen
  | cons x xs =>
    obtain ⟨s, -, rfl⟩ := mem_calendarLines.mp (hl ▸ List.mem_cons_self : x ∈ calendarLines l)
    rw [hl, toList_calendarLine] at hempty
    cases xs <;> simp [List.intercalate] at hempty

/-- A day of the weekend is shown closed, as hashed, and the day after it is not answered for. -/
theorem buildCalendar_covered_weekend :
    ∃ cal, buildCalendar emptyDigest [] [weekendCoverage] = .ok cal ∧ cal.status 19786 = .closed ∧
      Unanswered cal 19787 := by
  have hbuild : buildCalendar emptyDigest [] [weekendCoverage] = .ok ⟨Dict.empty, [(19785, 19786)]⟩ := rfl
  have hhashed : HashedExactly emptyDigest weekendCoverage.sessionsSha256 [] := by
    refine ⟨rfl, fun other hother => ?_⟩
    unfold calendarHash emptyDigest at hother
    split at hother
    · next hempty => rw [calendarText_eq_empty hempty]
    · exact absurd hother (by decide)
  refine ⟨_, hbuild, ?_, (buildCalendar_covered hbuild 19787).2 (by decide)⟩
  rcases (buildCalendar_covered hbuild 19786).1 weekendCoverage [] (by decide) hhashed with ⟨-, s, -, -, t, ht, -⟩ | ⟨hclosed, -⟩
  · exact absurd ht List.not_mem_nil
  · exact hclosed

end CalendarRules
end AsymmetricCommittee
