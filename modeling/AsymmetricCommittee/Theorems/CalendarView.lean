import AsymmetricCommittee.Lib.Grouping
import AsymmetricCommittee.Evaluation.CalendarRules

/-! What a calendar view shows. While no two versions of a date share their availability time, the view
    depends on the set of visible rows only, a coverage row keeps matching its sessions however many later
    versions are added, and a view whose coverage rows match and vouch for every session is built. -/

namespace AsymmetricCommittee
namespace CalendarRules

/-- No two versions of a date became available at one time. -/
def DistinctTimes (ss : List TradingSession) : Prop :=
  ∀ a ∈ ss, ∀ b ∈ ss, a.sessionDate = b.sessionDate → a.availableAt.instant = b.availableAt.instant → a = b

/-- `s` is the newest version of its date among those available at `t`. -/
structure IsLatest (ss : List TradingSession) (t : Int) (s : TradingSession) : Prop where
  mem : s ∈ ss
  available : s.availableAt.instant ≤ t
  newest : ∀ s' ∈ ss, s'.sessionDate = s.sessionDate → s'.availableAt.instant ≤ t →
    s'.availableAt.instant ≤ s.availableAt.instant

variable {ss ss' : List TradingSession} {cs : List CalendarCoverage} {s : TradingSession} {d : Date} {t : Int}

theorem IsLatest.unique (hd : DistinctTimes ss) {s' : TradingSession} (h : IsLatest ss t s) (h' : IsLatest ss t s')
    (hdate : s.sessionDate = s'.sessionDate) : s = s' := by
  have hle := h.newest s' h'.mem hdate.symm h'.available
  have hge := h'.newest s h.mem hdate h.available
  exact hd s h.mem s' h'.mem hdate (le_antisymm hge hle)

theorem isLatest_congr (h : ∀ s, s.availableAt.instant ≤ t → (s ∈ ss ↔ s ∈ ss')) : IsLatest ss t s ↔ IsLatest ss' t s := by
  constructor
  · rintro ⟨hm, ha, hn⟩
    exact ⟨(h s ha).mp hm, ha, fun s' hs' hdate ha' => hn s' ((h s' ha').mpr hs') hdate ha'⟩
  · rintro ⟨hm, ha, hn⟩
    exact ⟨(h s ha).mpr hm, ha, fun s' hs' hdate ha' => hn s' ((h s' ha').mp hs') hdate ha'⟩

theorem versionKey_le {a b : TradingSession} (h : versionKey a ≤ versionKey b) :
    a.availableAt.instant ≤ b.availableAt.instant := by
  rcases Prod.Lex.le_iff.mp h with hlt | ⟨heq, -⟩
  · exact hlt.le
  · exact heq.le

theorem coverageKey_le {a b : CalendarCoverage} (h : coverageKey a ≤ coverageKey b) :
    a.availableAt.instant ≤ b.availableAt.instant := by
  rcases Prod.Lex.le_iff.mp h with hlt | ⟨heq, -⟩
  · exact hlt.le
  · exact heq.le

/-- Of versions that became available at different times, the latest is the newest. -/
theorem latest_eq_some {l : List TradingSession}
    (hd : ∀ a ∈ l, ∀ b ∈ l, a.availableAt.instant = b.availableAt.instant → a = b) :
    latest l = some s ↔ s ∈ l ∧ ∀ s' ∈ l, s'.availableAt.instant ≤ s.availableAt.instant := by
  have hargmax : ∀ m, latest l = some m → m ∈ l ∧ ∀ s' ∈ l, s'.availableAt.instant ≤ m.availableAt.instant :=
    fun m hm => ⟨List.argmax_mem hm, fun s' hs' => versionKey_le (List.le_of_mem_argmax hs' hm)⟩
  refine ⟨hargmax s, fun ⟨hs, hnewest⟩ => ?_⟩
  cases hm : latest l with
  | none =>
    rw [List.argmax_eq_none.mp hm] at hs
    cases hs
  | some m =>
    obtain ⟨hml, hm⟩ := hargmax m hm
    rw [hd m hml s hs (le_antisymm (hnewest m hml) (hm s hs))]

/-- The latest of the visible versions of a date. -/
theorem latest_visible (hd : DistinctTimes ss) :
    latest ((ss.filter fun s => decide (s.sessionDate = d)).filter fun s => decide (s.availableAt.instant ≤ t)) = some s ↔
      s.sessionDate = d ∧ IsLatest ss t s := by
  rw [latest_eq_some]
  · simp only [List.mem_filter, decide_eq_true_eq]
    constructor
    · rintro ⟨⟨⟨hs, hdate⟩, ha⟩, hnewest⟩
      exact ⟨hdate, hs, ha, fun s' hs' hdate' ha' => hnewest s' ⟨⟨hs', hdate'.trans hdate⟩, ha'⟩⟩
    · rintro ⟨hdate, hs, ha, hnewest⟩
      exact ⟨⟨⟨hs, hdate⟩, ha⟩, fun s' h => hnewest s' h.1.1 (h.1.2.trans hdate.symm) h.2⟩
  · simp only [List.mem_filter, decide_eq_true_eq]
    rintro a ⟨⟨ha, hda⟩, -⟩ b ⟨⟨hb, hdb⟩, -⟩ hab
    exact hd a ha b hb (hda.trans hdb.symm) hab

/-! ### The sessions a coverage row describes -/

theorem mem_current (hd : DistinctTimes ss) {c : CalendarCoverage} : s ∈ current (versions ss) c ↔
    (c.rangeStart ≤ s.sessionDate ∧ s.sessionDate ≤ c.rangeEnd) ∧ IsLatest ss c.availableAt.instant s := by
  simp only [current, List.mem_filterMap, Prod.exists]
  constructor
  · rintro ⟨d, vs, he, h⟩
    split at h
    · next hr =>
      rw [(mem_versions he).1, latest_visible hd] at h
      exact ⟨h.1 ▸ hr, h.2⟩
    · cases h
  · rintro ⟨hr, hs⟩
    have hne : ss.filter (fun x => decide (x.sessionDate = s.sessionDate)) ≠ [] :=
      List.ne_nil_of_mem (List.mem_filter.mpr ⟨hs.mem, by simp⟩)
    refine ⟨s.sessionDate, _, Dict.get?_eq_some.mp ((get?_versions ss s.sessionDate).trans (if_neg hne)), ?_⟩
    rw [if_pos hr, latest_visible hd]
    exact ⟨rfl, hs⟩

theorem current_dates_nodup (ss : List TradingSession) (c : CalendarCoverage) :
    ((current (versions ss) c).map (·.sessionDate)).Nodup := by
  have hsub : ∀ l : List (Date × List TradingSession),
      (∀ e ∈ l, e ∈ (versions ss).entries) →
      ((l.filterMap fun e => if c.rangeStart ≤ e.1 ∧ e.1 ≤ c.rangeEnd then
        latest (e.2.filter fun s => decide (s.availableAt.instant ≤ c.availableAt.instant)) else none).map
          (·.sessionDate)).Sublist (l.map Prod.fst) := by
    intro l hl
    induction l with
    | nil => exact List.Sublist.slnil
    | cons e l ih =>
      have ih := ih fun x hx => hl x (List.mem_cons_of_mem e hx)
      rw [List.filterMap_cons]
      split
      · exact ih.cons e.1
      · next s hs =>
        have hdate : s.sessionDate = e.1 := by
          split at hs
          · have hm := (List.mem_filter.mp (List.argmax_mem hs)).1
            rw [(mem_versions (hl e List.mem_cons_self)).1] at hm
            simpa using (List.mem_filter.mp hm).2
          · cases hs
        rw [List.map_cons, List.map_cons, hdate]
        exact ih.cons_cons e.1
  exact (versions ss).nodup.sublist (hsub _ fun e he => he)

/-- The sessions a coverage row describes do not depend on what became available after it. -/
theorem current_perm (hd : DistinctTimes ss) (hd' : DistinctTimes ss') {c : CalendarCoverage}
    (h : ∀ s, s.availableAt.instant ≤ c.availableAt.instant → (s ∈ ss ↔ s ∈ ss')) :
    (current (versions ss) c).Perm (current (versions ss') c) := by
  refine (List.perm_ext_iff_of_nodup (current_dates_nodup ss c).of_map (current_dates_nodup ss' c).of_map).mpr ?_
  intro s
  rw [mem_current hd, mem_current hd', isLatest_congr h]

/-! ### The canonical text -/

/-- What the canonical text reads of a session. -/
def lineFields (s : TradingSession) : Date × Int × Int × String :=
  (s.sessionDate, s.openAt.instant, s.closeAt.instant, s.sourceVersion.val)

/-- The canonical text depends on the fields of its lines only, in any order. -/
theorem calendarText_congr (hp : (ss.map lineFields).Perm (ss'.map lineFields))
    (hn : (ss.map (·.sessionDate)).Nodup) : calendarText ss = calendarText ss' := by
  let r : Date × Int × Int × String → Date × Int × Int × String → Prop := fun a b =>
    (toLex (a.1, a.2.2.2) : Date ×ₗ String) ≤ toLex (b.1, b.2.2.2)
  let line : Date × Int × Int × String → String := fun a =>
    String.intercalate "|" [IsoTime.isoDate a.1, IsoTime.isoUtcMicros a.2.1, IsoTime.isoUtcMicros a.2.2.1, a.2.2.2]
  have htext : ∀ l : List TradingSession,
      calendarText l = String.intercalate "\n" (((l.map lineFields).insertionSort r).map line) := by
    intro l
    rw [calendarText, ← List.map_insertionSort (fun a b => a.calendarKey ≤ b.calendarKey) r lineFields l
      fun a _ b _ => Iff.rfl, List.map_map]
    rfl
  have hdates : ∀ a ∈ ss.map lineFields, ∀ b ∈ ss.map lineFields, a.1 = b.1 → a = b := by
    intro a ha b hb hab
    obtain ⟨x, hx, rfl⟩ := List.mem_map.mp ha
    obtain ⟨y, hy, rfl⟩ := List.mem_map.mp hb
    rw [List.inj_on_of_nodup_map hn hx hy hab]
  have hsorted : (ss.map lineFields).insertionSort r = (ss'.map lineFields).insertionSort r := by
    refine Grouping.insertionSort_eq_of_perm _ hp fun a ha b hb hkey => ?_
    exact hdates a ha b hb (Prod.mk.inj (toLex.injective hkey)).1
  rw [htext, htext, hsorted]

/-- A list is split at the first occurrence of an element. -/
theorem append_cons_inj {α : Type} {a : α} {xs ys r r' : List α} (hx : a ∉ xs) (hy : a ∉ ys)
    (h : xs ++ a :: r = ys ++ a :: r') : xs = ys ∧ r = r' := by
  induction xs generalizing ys with
  | nil =>
    cases ys with
    | nil => exact ⟨rfl, (List.cons.inj h).2⟩
    | cons y ys => exact absurd ((List.cons.inj h).1 ▸ List.mem_cons_self) hy
  | cons x xs ih =>
    cases ys with
    | nil => exact absurd ((List.cons.inj h).1 ▸ List.mem_cons_self) hx
    | cons y ys =>
      obtain ⟨rfl, htail⟩ := List.cons.inj h
      obtain ⟨rfl, rfl⟩ := ih (fun hm => hx (List.mem_cons_of_mem x hm)) (fun hm => hy (List.mem_cons_of_mem x hm)) htail
      exact ⟨rfl, rfl⟩

theorem toList_calendarLine (s : TradingSession) :
    s.calendarLine.toList = (IsoTime.isoDate s.sessionDate).toList ++
      '|' :: ((IsoTime.isoUtcMicros s.openAt.instant).toList ++
        '|' :: ((IsoTime.isoUtcMicros s.closeAt.instant).toList ++ '|' :: s.sourceVersion.val.toList)) := by
  simp [TradingSession.calendarLine]

theorem bar_notMem_isoDate (d : Date) : '|' ∉ (IsoTime.isoDate d).toList :=
  fun h => (IsoTime.isoChar_isoDate d _ h).ne.1 rfl

theorem bar_notMem_isoUtcMicros (t : Int) : '|' ∉ (IsoTime.isoUtcMicros t).toList :=
  fun h => (IsoTime.isoChar_isoUtcMicros t _ h).ne.1 rfl

/-- A line names its date and version. -/
theorem calendarLine_inj {a b : TradingSession} (h : a.calendarLine.toList = b.calendarLine.toList) :
    a.sessionDate = b.sessionDate ∧ a.sourceVersion = b.sourceVersion := by
  rw [toList_calendarLine, toList_calendarLine] at h
  obtain ⟨hdate, h⟩ := append_cons_inj (bar_notMem_isoDate _) (bar_notMem_isoDate _) h
  obtain ⟨-, h⟩ := append_cons_inj (bar_notMem_isoUtcMicros _) (bar_notMem_isoUtcMicros _) h
  obtain ⟨-, h⟩ := append_cons_inj (bar_notMem_isoUtcMicros _) (bar_notMem_isoUtcMicros _) h
  exact ⟨IsoTime.isoDate_injective (String.toList_inj.mp hdate), Subtype.ext (String.toList_inj.mp h)⟩

/-- The lines of a set of sessions, as the canonical text arranges them. -/
def calendarLines (ss : List TradingSession) : List (List Char) :=
  (ss.insertionSort fun a b => a.calendarKey ≤ b.calendarKey).map fun s => s.calendarLine.toList

theorem mem_calendarLines {l : List Char} : l ∈ calendarLines ss ↔ ∃ s ∈ ss, s.calendarLine.toList = l := by
  simp [calendarLines, (List.perm_insertionSort _ ss).mem_iff]

theorem newline_notMem_calendarLine (h : '\n' ∉ s.sourceVersion.val.toList) : '\n' ∉ s.calendarLine.toList := by
  have hdate : '\n' ∉ (IsoTime.isoDate s.sessionDate).toList := fun h => (IsoTime.isoChar_isoDate _ _ h).ne.2 rfl
  have htime : ∀ t, '\n' ∉ (IsoTime.isoUtcMicros t).toList := fun t h => (IsoTime.isoChar_isoUtcMicros t _ h).ne.2 rfl
  simp [toList_calendarLine, h, hdate, htime]

/-- Equal canonical texts name the same versions. -/
theorem versions_of_calendarText_eq (hs : ∀ s ∈ ss, '\n' ∉ s.sourceVersion.val.toList)
    (hs' : ∀ s ∈ ss', '\n' ∉ s.sourceVersion.val.toList) (h : calendarText ss = calendarText ss') :
    ∀ s ∈ ss, ∃ s' ∈ ss', s'.sessionDate = s.sessionDate ∧ s'.sourceVersion = s.sourceVersion := by
  have hlines : ∀ l : List TradingSession, (∀ s ∈ l, '\n' ∉ s.sourceVersion.val.toList) → calendarLines l ≠ [] →
      (calendarText l).toList.splitOn '\n' = calendarLines l := by
    intro l hl hne
    rw [calendarText, String.toList_intercalate, List.map_map]
    refine List.splitOn_intercalate '\n' (fun x hx => ?_) hne
    obtain ⟨s, hs, rfl⟩ := mem_calendarLines.mp hx
    exact newline_notMem_calendarLine (hl s hs)
  intro s hmem
  have hline : s.calendarLine.toList ∈ calendarLines ss := mem_calendarLines.mpr ⟨s, hmem, rfl⟩
  have hsplit := hlines ss hs (List.ne_nil_of_mem hline)
  by_cases hnil : calendarLines ss' = []
  · -- no line of `ss` is empty, so its text is not the empty one
    have hempty : (calendarText ss').toList = [] := by
      rw [calendarText, String.toList_intercalate, List.map_map]
      exact congrArg (List.intercalate ['\n']) hnil
    rw [h, hempty, List.splitOn_nil] at hsplit
    rw [← hsplit, List.mem_singleton, toList_calendarLine] at hline
    simp at hline
  · rw [h, hlines ss' hs' hnil] at hsplit
    rw [← hsplit] at hline
    obtain ⟨s', hs', heq⟩ := mem_calendarLines.mp hline
    exact ⟨s', hs', calendarLine_inj heq⟩

/-! ### Building a view -/

section Build
variable {sha256 : String → Sha256Hex}

/-- A coverage row describes exactly the versions that were current when it was written. -/
def Matches (sha256 : String → Sha256Hex) (ss : List TradingSession) (c : CalendarCoverage) : Prop :=
  (current (versions ss) c).length = c.sessionCount ∧ calendarHash sha256 (current (versions ss) c) = c.sessionsSha256

theorem checkCoverage_ok {c : CalendarCoverage} (h : Matches sha256 ss c) :
    checkCoverage sha256 (versions ss) c = .ok () :=
  if_neg (by simp [h.1, h.2])

theorem Matches.congr (hd : DistinctTimes ss) (hd' : DistinctTimes ss') {c : CalendarCoverage}
    (h : ∀ s, s.availableAt.instant ≤ c.availableAt.instant → (s ∈ ss ↔ s ∈ ss')) (hm : Matches sha256 ss c) :
    Matches sha256 ss' c := by
  have hp := current_perm hd hd' h
  refine ⟨hp.length_eq.symm.trans hm.1, ?_⟩
  rw [← hm.2, calendarHash, calendarHash, calendarText_congr (hp.map lineFields) (current_dates_nodup ss c)]

/-- The effective session of a date that a chosen row as new as its newest version covers. -/
theorem effectiveStep_ok {chosen : List CalendarCoverage} {eff : Dict Date TradingSession}
    {vs : List TradingSession} {newest : TradingSession} (hl : latest vs = some newest)
    (hc : ∃ c ∈ chosen, (c.rangeStart ≤ d ∧ d ≤ c.rangeEnd) ∧ newest.availableAt.instant ≤ c.availableAt.instant) :
    effectiveStep chosen eff (d, vs) = .ok (eff.set d newest) := by
  obtain ⟨c, hmem, hrange, hle⟩ := hc
  have hin : c.availableAt.instant ∈
      (chosen.filter fun c => decide (c.rangeStart ≤ d ∧ d ≤ c.rangeEnd)).map fun c => c.availableAt.instant :=
    List.mem_map_of_mem (List.mem_filter.mpr ⟨hmem, decide_eq_true hrange⟩)
  unfold effectiveStep
  simp only [hl]
  split
  · next n' available hn hmax =>
    cases hn
    have hmax := (List.max?_eq_some_iff.mp hmax).2 _ hin
    exact if_neg (not_lt.mpr (hle.trans hmax))
  · next hno =>
    obtain ⟨a, ha⟩ := Option.isSome_iff_exists.mp (List.isSome_max?_of_mem hin)
    exact absurd ha (hno newest a rfl)

theorem effective_ok {chosen : List CalendarCoverage} {l : List (Date × List TradingSession)}
    (hn : (l.map Prod.fst).Nodup)
    (hl : ∀ e ∈ l, ∃ newest, latest e.2 = some newest ∧ ∃ c ∈ chosen, (c.rangeStart ≤ e.1 ∧ e.1 ≤ c.rangeEnd) ∧
      newest.availableAt.instant ≤ c.availableAt.instant) (eff : Dict Date TradingSession) :
    ∃ eff', l.foldlM (effectiveStep chosen) eff = .ok eff' ∧
      ∀ d, eff'.get? d = (l.lookup d).elim (eff.get? d) latest := by
  induction l generalizing eff with
  | nil => exact ⟨eff, rfl, fun d => rfl⟩
  | cons e l ih =>
    obtain ⟨newest, hlatest, hcover⟩ := hl e List.mem_cons_self
    obtain ⟨hnot, hn⟩ := List.nodup_cons.mp hn
    obtain ⟨eff', heff', hget⟩ := ih hn (fun x hx => hl x (List.mem_cons_of_mem e hx)) (eff.set e.1 newest)
    refine ⟨eff', ?_, fun d => ?_⟩
    · rw [List.foldlM_cons]
      exact Except.bind_eq_ok.mpr ⟨_, effectiveStep_ok hlatest hcover, heff'⟩
    · rw [hget, Dict.get?_set, List.lookup_cons]
      by_cases hd : d = e.1
      · have hnone : l.lookup d = none := by
          rw [List.lookup_eq_none_iff]
          rintro x hx
          refine bne_iff_ne.mpr fun hdx => hnot ?_
          rw [← hd, hdx]
          exact List.mem_map_of_mem hx
        rw [hnone, beq_iff_eq.mpr hd, if_pos hd]
        exact hlatest.symm
      · rw [beq_eq_false_iff_ne.mpr hd, if_neg hd]

/-- A view whose coverage rows match their sessions and vouch for every session is built, and shows the
    newest version of each date. -/
theorem buildCalendar_ok (hmatch : ∀ c ∈ cs, Matches sha256 ss c)
    (hcovered : ∀ s ∈ ss, ∃ c ∈ cs, (c.rangeStart ≤ s.sessionDate ∧ s.sessionDate ≤ c.rangeEnd) ∧
      s.availableAt.instant ≤ c.availableAt.instant) :
    ∃ cal, buildCalendar sha256 ss cs = .ok cal ∧ (∀ c ∈ cs, (c.rangeStart, c.rangeEnd) ∈ cal.ranges) ∧
      ∀ d, cal.sessions.get? d = latest (ss.filter fun s => decide (s.sessionDate = d)) := by
  have hchosen : ∀ c ∈ cs, ∃ e ∈ (byRange cs).values, (e.rangeStart, e.rangeEnd) = (c.rangeStart, c.rangeEnd) ∧
      c.availableAt.instant ≤ e.availableAt.instant := by
    intro c hc
    obtain ⟨e, he, hle⟩ := exists_byRange hc
    have hkey := Prod.mk.inj (get?_byRange he).2
    exact ⟨e, Dict.mem_values.mpr ⟨_, he⟩, hkey.2.symm, coverageKey_le hle⟩
  have hchecked : ∀ c ∈ (byRange cs).values, ∃ u, checkCoverage sha256 (versions ss) c = .ok u := by
    intro c hc
    obtain ⟨k, hk⟩ := Dict.mem_values.mp hc
    exact ⟨(), checkCoverage_ok (hmatch c (get?_byRange hk).1)⟩
  have hvouched : ∀ e ∈ (versions ss).entries, ∃ newest, latest e.2 = some newest ∧
      ∃ c ∈ (byRange cs).values, (c.rangeStart ≤ e.1 ∧ e.1 ≤ c.rangeEnd) ∧
        newest.availableAt.instant ≤ c.availableAt.instant := by
    intro e he
    obtain ⟨hvs, hne⟩ := mem_versions he
    obtain ⟨m, hm⟩ := Option.ne_none_iff_exists'.mp (fun h => hne (List.argmax_eq_none.mp h) : latest e.2 ≠ none)
    have hmem := List.argmax_mem hm
    rw [hvs, List.mem_filter, decide_eq_true_eq] at hmem
    obtain ⟨c, hc, hrange, hle⟩ := hcovered m hmem.1
    obtain ⟨c', hc', hsame, hle'⟩ := hchosen c hc
    obtain ⟨hstart, hend⟩ := Prod.mk.inj hsame
    rw [hmem.2, ← hstart, ← hend] at hrange
    exact ⟨m, hm, c', hc', hrange, hle.trans hle'⟩
  obtain ⟨us, hus⟩ := Except.mapM_ok_of_forall hchecked
  obtain ⟨eff, heff, hget⟩ := effective_ok (versions ss).nodup hvouched Dict.empty
  refine ⟨_, Except.bind_eq_ok.mpr ⟨us, hus, Except.bind_eq_ok.mpr ⟨eff, heff, rfl⟩⟩, fun c hc => ?_, fun d => ?_⟩
  · obtain ⟨e, he, hsame, -⟩ := hchosen c hc
    rw [(List.perm_insertionSort _ _).mem_iff, List.mem_dedup, ← hsame]
    exact List.mem_map_of_mem (f := fun c : CalendarCoverage => (c.rangeStart, c.rangeEnd)) he
  · have hversions := get?_versions ss d
    rw [Dict.get?] at hversions
    rw [hget, hversions, Dict.get?_empty]
    split
    · next hnil =>
      rw [hnil]
      rfl
    · rfl

end Build

end CalendarRules
end AsymmetricCommittee
