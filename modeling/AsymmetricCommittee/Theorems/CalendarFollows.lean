import AsymmetricCommittee.Ingest.ReferenceData
import AsymmetricCommittee.Contracts.Samples
import AsymmetricCommittee.Theorems.CalendarView

/-! The calendar follows its source. After any sequence of syncs in which no fetch leaves out a stored
    session of its range or goes back to a version older than the newest, the stored tables are coherent:
    every coverage row matches the sessions visible with it and vouches for them, so that a later read
    succeeds and shows the last fetch. A removed or a reinstated session is not followed, as sessions are
    never deleted and a version never becomes available again. -/

namespace AsymmetricCommittee
namespace ReferenceData
open CalendarRules Store

variable {sha256 : String → Sha256Hex} {db db' : CalendarTables} {f : CalendarFetch} {fs : List CalendarFetch} {n : Nat}

/-- The calendar agrees with a fetch on every date of its range. -/
structure Agrees (cal : TradingCalendar) (f : CalendarFetch) : Prop where
  opened : ∀ m ∈ f.sessions, cal.status m.sessionDate = .open ∧ ∃ s, cal.session m.sessionDate = .ok s ∧
    s.sessionDate = m.sessionDate ∧ s.openAt.instant = m.opensAt.instant ∧ s.closeAt.instant = m.closesAt.instant
  closed : ∀ d, f.start ≤ d → d ≤ f.stop → (∀ m ∈ f.sessions, m.sessionDate ≠ d) → cal.status d = .closed

/-- A fetch that adds and revises sessions only: one session a date, none of the range left out, and none
    with the content of a stored version that is not the newest of its date. -/
structure Revises (db : CalendarTables) (f : CalendarFetch) : Prop where
  one_a_day : (f.sessions.map (·.sessionDate)).Nodup
  none_removed : ∀ s ∈ db.tradingCalendar, f.start ≤ s.sessionDate → s.sessionDate ≤ f.stop →
    ∃ m ∈ f.sessions, m.sessionDate = s.sessionDate
  none_reinstated : ∀ m ∈ f.sessions, ∀ s ∈ db.tradingCalendar, s.sessionDate = m.sessionDate →
    s.openAt.instant = m.opensAt.instant → s.closeAt.instant = m.closesAt.instant →
    ∀ s' ∈ db.tradingCalendar, s'.sessionDate = m.sessionDate → s'.availableAt.instant ≤ s.availableAt.instant

/-- The rows of a fetch. -/
def CalendarFetch.rows (sha256 : String → Sha256Hex) (f : CalendarFetch) : List TradingSession :=
  toTradingSessions sha256 f.sessions f.now

/-- SHA-256 tells the calendars of these fetches apart. -/
def NoCollision (sha256 : String → Sha256Hex) (fs : List CalendarFetch) : Prop :=
  ∀ f ∈ fs, ∀ g ∈ fs, sha256 (calendarText (f.rows sha256)) = sha256 (calendarText (g.rows sha256)) →
    calendarText (f.rows sha256) = calendarText (g.rows sha256)

/-- What the stored tables hold after the fetches `fs`. -/
structure Coherent (sha256 : String → Sha256Hex) (fs : List CalendarFetch) (db : CalendarTables) : Prop where
  unique_sessions : KeyedTable.Unique tradingCalendarTable.key db.tradingCalendar
  unique_coverage : KeyedTable.Unique calendarCoverageTable.key db.calendarCoverage
  distinct : DistinctTimes db.tradingCalendar
  stamped_sessions : ∀ s ∈ db.tradingCalendar, ∃ f ∈ fs, s.availableAt = f.now
  stamped_coverage : ∀ c ∈ db.calendarCoverage, ∃ f ∈ fs, c.availableAt = f.now
  kept : ∀ f ∈ fs, ∀ r ∈ f.rows sha256,
    (KeyedTable.find tradingCalendarTable.key db.tradingCalendar (tradingCalendarTable.key r)).isSome
  fetched : ∀ c ∈ db.calendarCoverage, ∃ f ∈ fs, c.sessionsSha256 = calendarHash sha256 (f.rows sha256)
  truthful : ∀ c ∈ db.calendarCoverage, Matches sha256 db.tradingCalendar c
  covered : ∀ s ∈ db.tradingCalendar, ∃ c ∈ db.calendarCoverage,
    (c.rangeStart ≤ s.sessionDate ∧ s.sessionDate ≤ c.rangeEnd) ∧ s.availableAt.instant ≤ c.availableAt.instant

theorem Coherent.empty (sha256 : String → Sha256Hex) : Coherent sha256 [] .empty where
  unique_sessions := List.nodup_nil
  unique_coverage := List.nodup_nil
  distinct _ ha := absurd ha List.not_mem_nil
  stamped_sessions _ hs := absurd hs List.not_mem_nil
  stamped_coverage _ hc := absurd hc List.not_mem_nil
  kept _ hf := absurd hf List.not_mem_nil
  fetched _ hc := absurd hc List.not_mem_nil
  truthful _ hc := absurd hc List.not_mem_nil
  covered _ hs := absurd hs List.not_mem_nil

/-! ### One sync -/

theorem mem_rows {r : TradingSession} : r ∈ f.rows sha256 ↔ ∃ m ∈ f.sessions, toTradingSession sha256 f.now m = r := by
  simp [CalendarFetch.rows, toTradingSessions]

theorem newline_notMem_version (m : MarketSession) : '\n' ∉ (sessionVersion sha256 m).val.toList := by
  have hhex : ∀ h : Sha256Hex, '\n' ∉ (hexPrefix 8 h).toList := by
    intro h hmem
    rw [hexPrefix, String.toList_ofList] at hmem
    have hall := h.property
    simp only [isSha256Hex, Bool.and_eq_true, List.all_eq_true] at hall
    exact absurd (hall.2 _ (List.mem_of_mem_take hmem)) (by decide)
  have hsource : '\n' ∉ (calendarSource.val ++ ":").toList := by decide
  rw [sessionVersion, String.toList_append, List.mem_append]
  exact fun h => h.elim hsource (hhex _)

/-- What a successful sync did. -/
structure Synced (sha256 : String → Sha256Hex) (db : CalendarTables) (f : CalendarFetch) (db' : CalendarTables)
    (c : CalendarCoverage) : Prop where
  coverage : (c.rangeStart, c.rangeEnd) = (f.start, f.stop) ∧ c.availableAt = f.now ∧
    c.sessionCount = (f.rows sha256).length ∧ c.sessionsSha256 = calendarHash sha256 (f.rows sha256)
  inRange : ∀ r ∈ f.rows sha256, f.start ≤ r.sessionDate ∧ r.sessionDate ≤ f.stop
  sessions : db'.tradingCalendar = KeyedTable.insertAll tradingCalendarTable.key db.tradingCalendar (f.rows sha256)
  coverages : db'.calendarCoverage = KeyedTable.insertAll calendarCoverageTable.key db.calendarCoverage [c]
  agree : ∀ r ∈ f.rows sha256, ∃ e, KeyedTable.find tradingCalendarTable.key db'.tradingCalendar
    (tradingCalendarTable.key r) = some e ∧ tradingCalendarTable.Agree e r
  agreeCoverage : ∃ e, KeyedTable.find calendarCoverageTable.key db'.calendarCoverage (calendarCoverageTable.key c) =
    some e ∧ calendarCoverageTable.Agree e c

theorem syncCalendar_eq_ok (h : syncCalendar sha256 db f = .ok (db', n)) : ∃ c, Synced sha256 db f db' c := by
  unfold syncCalendar at h
  split at h
  · cases h
  · next hrange =>
    simp only at h
    split at h
    · cases h
    · next hin =>
      have hinsert : insertCalendarRange sha256 db (f.rows sha256)
          (calendarCoverageFor sha256 (f.rows sha256) f.start f.stop (not_lt.mp hrange) f.now) = .ok (db', n) := by
        cases hi : insertCalendarRange sha256 db (toTradingSessions sha256 f.sessions f.now)
          (calendarCoverageFor sha256 (toTradingSessions sha256 f.sessions f.now) f.start f.stop (not_lt.mp hrange)
            f.now) with
        | error e =>
          rw [hi] at h
          cases h
        | ok x =>
          rw [hi] at h
          cases h
          exact hi
      obtain ⟨hsessions, hcoverage, hagree, hagree'⟩ := insertCalendarRange_eq_ok hinsert
      refine ⟨_, ⟨⟨rfl, rfl, rfl, rfl⟩, fun r hr => ?_, hsessions, hcoverage, hagree, hagree'⟩⟩
      by_contra hout
      exact hin (List.any_eq_true.mpr ⟨r, hr, decide_eq_true hout⟩)

section Step
variable {c : CalendarCoverage}

theorem Coherent.older (hC : Coherent sha256 fs db) (hlater : ∀ g ∈ fs, g.now.instant < f.now.instant)
    {s : TradingSession} (hs : s ∈ db.tradingCalendar) : s.availableAt.instant < f.now.instant := by
  obtain ⟨g, hg, hnow⟩ := hC.stamped_sessions s hs
  rw [hnow]
  exact hlater g hg

theorem Revises.rows_date_inj (hR : Revises db f) {r r' : TradingSession} (hr : r ∈ f.rows sha256)
    (hr' : r' ∈ f.rows sha256) (h : r.sessionDate = r'.sessionDate) : r = r' := by
  obtain ⟨m, hm, rfl⟩ := mem_rows.mp hr
  obtain ⟨m', hm', rfl⟩ := mem_rows.mp hr'
  rw [List.inj_on_of_nodup_map hR.one_a_day hm hm' h]

variable (hC : Coherent sha256 fs db) (hS : Synced sha256 db f db' c)
include hC hS

/-- A row of the new table was there, or is one of the fetch under a new key. -/
theorem mem_synced {s : TradingSession} : s ∈ db'.tradingCalendar ↔ s ∈ db.tradingCalendar ∨
    KeyedTable.find tradingCalendarTable.key db.tradingCalendar (tradingCalendarTable.key s) = none ∧
      KeyedTable.find tradingCalendarTable.key (f.rows sha256) (tradingCalendarTable.key s) = some s := by
  rw [hS.sessions, KeyedTable.mem_insertAll hC.unique_sessions]

/-- A row that was not there was fetched now. -/
theorem new_row {s : TradingSession} (hs : s ∈ db'.tradingCalendar) (hnew : s ∉ db.tradingCalendar) :
    s ∈ f.rows sha256 ∧ s.availableAt = f.now ∧
      KeyedTable.find tradingCalendarTable.key db.tradingCalendar (tradingCalendarTable.key s) = none := by
  rcases (mem_synced hC hS).mp hs with hold | ⟨hnone, hfind⟩
  · exact absurd hold hnew
  · have hrow := (KeyedTable.find_some hfind).1
    obtain ⟨m, -, rfl⟩ := mem_rows.mp hrow
    exact ⟨hrow, rfl, hnone⟩

variable (hR : Revises db f)
include hR

/-- Each stored session of the range is one of the fetch's dates. -/
theorem listed {s : TradingSession} (hs : s ∈ db'.tradingCalendar) (hstart : f.start ≤ s.sessionDate)
    (hstop : s.sessionDate ≤ f.stop) : ∃ m ∈ f.sessions, m.sessionDate = s.sessionDate := by
  by_cases hold : s ∈ db.tradingCalendar
  · exact hR.none_removed s hold hstart hstop
  · obtain ⟨m, hm, rfl⟩ := mem_rows.mp (new_row hC hS hs hold).1
    exact ⟨m, hm, rfl⟩

variable (hlater : ∀ g ∈ fs, g.now.instant < f.now.instant)
include hlater

theorem distinct_synced : DistinctTimes db'.tradingCalendar := by
  intro a ha b hb hdate htime
  by_cases hao : a ∈ db.tradingCalendar <;> by_cases hbo : b ∈ db.tradingCalendar
  · exact hC.distinct a hao b hbo hdate htime
  · have hlt := hC.older hlater hao
    rw [htime, (new_row hC hS hb hbo).2.1] at hlt
    exact absurd hlt (lt_irrefl _)
  · have hlt := hC.older hlater hbo
    rw [← htime, (new_row hC hS ha hao).2.1] at hlt
    exact absurd hlt (lt_irrefl _)
  · exact hR.rows_date_inj (new_row hC hS ha hao).1 (new_row hC hS hb hbo).1 hdate

/-- After the sync the newest version of each fetched date says what the fetch says. -/
theorem newest_synced {r : TradingSession} (hr : r ∈ f.rows sha256) :
    ∃ e ∈ db'.tradingCalendar, lineFields e = lineFields r ∧
      ∀ s ∈ db'.tradingCalendar, s.sessionDate = r.sessionDate → s.availableAt.instant ≤ e.availableAt.instant := by
  obtain ⟨e, he, hagree⟩ := hS.agree r hr
  obtain ⟨hmem, hkey⟩ := KeyedTable.find_some he
  obtain ⟨hdate, hversion⟩ := Prod.mk.inj hkey
  have hopen : e.openAt.instant = r.openAt.instant := of_decide_eq_true (hagree _ List.mem_cons_self)
  have hclose : e.closeAt.instant = r.closeAt.instant :=
    of_decide_eq_true (hagree _ (List.mem_cons_of_mem _ List.mem_cons_self))
  refine ⟨e, hmem, by simp [lineFields, hdate, hversion, hopen, hclose], fun s hs hsd => ?_⟩
  by_cases heo : e ∈ db.tradingCalendar
  · by_cases hso : s ∈ db.tradingCalendar
    · obtain ⟨m, hm, rfl⟩ := mem_rows.mp hr
      exact hR.none_reinstated m hm e heo hdate hopen hclose s hso hsd
    · -- a new version of the date would be the fetch's, whose key was taken
      obtain ⟨hrow, -, hnone⟩ := new_row hC hS hs hso
      rw [hR.rows_date_inj hrow hr hsd] at hnone
      exact absurd hkey (KeyedTable.find_eq_none.mp hnone e heo)
  · rw [(new_row hC hS hmem heo).2.1]
    by_cases hso : s ∈ db.tradingCalendar
    · exact (hC.older hlater hso).le
    · rw [(new_row hC hS hs hso).2.1]

/-- A coverage record of the fetch's range, written with it, matches the sessions it describes. -/
theorem matches_synced : Matches sha256 db'.tradingCalendar c := by
  have hd := distinct_synced hC hS hR hlater
  obtain ⟨hrange, havailable, hcount, hsha⟩ := hS.coverage
  obtain ⟨hstart, hend⟩ := Prod.mk.inj hrange
  have hvisible : ∀ s ∈ db'.tradingCalendar, s.availableAt.instant ≤ c.availableAt.instant := by
    intro s hs
    rw [havailable]
    by_cases hso : s ∈ db.tradingCalendar
    · exact (hC.older hlater hso).le
    · rw [(new_row hC hS hs hso).2.1]
  have hcurrent : ((current (versions db'.tradingCalendar) c).map lineFields).Perm ((f.rows sha256).map lineFields) := by
    have hnodup : ((current (versions db'.tradingCalendar) c).map lineFields).Nodup := by
      refine List.Nodup.of_map Prod.fst ?_
      rw [List.map_map]
      exact current_dates_nodup _ c
    have hnodup' : ((f.rows sha256).map lineFields).Nodup := by
      refine List.Nodup.of_map Prod.fst ?_
      rw [List.map_map, CalendarFetch.rows, toTradingSessions, List.map_map]
      exact hR.one_a_day
    refine (List.perm_ext_iff_of_nodup hnodup hnodup').mpr fun x => ?_
    simp only [List.mem_map, mem_current hd, hstart, hend]
    constructor
    · rintro ⟨s, ⟨⟨hge, hle⟩, hlatest⟩, rfl⟩
      obtain ⟨m, hm, hdate⟩ := listed hC hS hR hlatest.mem hge hle
      have hrow : toTradingSession sha256 f.now m ∈ f.rows sha256 := mem_rows.mpr ⟨m, hm, rfl⟩
      obtain ⟨e, he, hfields, hnewest⟩ := newest_synced hC hS hR hlater hrow
      have hed : e.sessionDate = s.sessionDate := (Prod.mk.inj hfields).1.trans hdate
      have hlatest' : IsLatest db'.tradingCalendar c.availableAt.instant e :=
        ⟨he, hvisible e he, fun s' hs' hsd _ => hnewest s' hs' (hsd.trans (Prod.mk.inj hfields).1)⟩
      exact ⟨_, hrow, by rw [← hfields, hlatest'.unique hd hlatest hed]⟩
    · rintro ⟨r, hr, rfl⟩
      obtain ⟨e, he, hfields, hnewest⟩ := newest_synced hC hS hR hlater hr
      have hed : e.sessionDate = r.sessionDate := (Prod.mk.inj hfields).1
      refine ⟨e, ⟨hed ▸ hS.inRange r hr, he, hvisible e he, fun s' hs' hsd _ => hnewest s' hs' (hsd.trans hed)⟩, hfields⟩
  refine ⟨?_, ?_⟩
  · have hlength := hcurrent.length_eq
    rw [List.length_map, List.length_map] at hlength
    rw [hcount, hlength]
  · rw [hsha, calendarHash, calendarHash, calendarText_congr hcurrent (current_dates_nodup _ c)]

/-- A sync under a coverage key of its own keeps the tables coherent. -/
theorem coherent_of_new
    (hnone : KeyedTable.find calendarCoverageTable.key db.calendarCoverage (calendarCoverageTable.key c) = none) :
    Coherent sha256 (fs ++ [f]) db' := by
  have hd := distinct_synced hC hS hR hlater
  have hcov : db'.calendarCoverage = db.calendarCoverage ++ [c] := by
    rw [hS.coverages]
    exact KeyedTable.insertNew_of_none hnone
  have hmatch := matches_synced hC hS hR hlater
  have hpast : ∀ e ∈ db.calendarCoverage, ∀ s, s.availableAt.instant ≤ e.availableAt.instant →
      (s ∈ db.tradingCalendar ↔ s ∈ db'.tradingCalendar) := by
    intro e he s hs
    refine ⟨fun h => (mem_synced hC hS).mpr (Or.inl h), fun h => by_contra fun hso => ?_⟩
    obtain ⟨g, hg, hnow⟩ := hC.stamped_coverage e he
    rw [(new_row hC hS h hso).2.1, hnow] at hs
    exact absurd (hlater g hg) (not_lt.mpr hs)
  obtain ⟨hrange, havailable, -, hsha⟩ := hS.coverage
  obtain ⟨hstart, hend⟩ := Prod.mk.inj hrange
  exact {
    unique_sessions := hS.sessions ▸ KeyedTable.unique_insertAll hC.unique_sessions _
    unique_coverage := hS.coverages ▸ KeyedTable.unique_insertAll hC.unique_coverage _
    distinct := hd
    stamped_sessions := fun s hs => by
      by_cases hso : s ∈ db.tradingCalendar
      · obtain ⟨g, hg, hnow⟩ := hC.stamped_sessions s hso
        exact ⟨g, List.mem_append_left _ hg, hnow⟩
      · exact ⟨f, by simp, (new_row hC hS hs hso).2.1⟩
    stamped_coverage := fun e he => by
      rw [hcov, List.mem_append, List.mem_singleton] at he
      rcases he with he | rfl
      · obtain ⟨g, hg, hnow⟩ := hC.stamped_coverage e he
        exact ⟨g, List.mem_append_left _ hg, hnow⟩
      · exact ⟨f, by simp, havailable⟩
    kept := fun g hg r hr => by
      rcases List.mem_append.mp hg with hg | hg
      · obtain ⟨e, he⟩ := Option.isSome_iff_exists.mp (hC.kept g hg r hr)
        rw [hS.sessions, KeyedTable.find_insertAll_of_some he]
        rfl
      · obtain ⟨e, he, -⟩ := hS.agree r (List.mem_singleton.mp hg ▸ hr)
        rw [he]
        rfl
    fetched := fun e he => by
      rw [hcov, List.mem_append, List.mem_singleton] at he
      rcases he with he | rfl
      · obtain ⟨g, hg, heq⟩ := hC.fetched e he
        exact ⟨g, List.mem_append_left _ hg, heq⟩
      · exact ⟨f, by simp, hsha⟩
    truthful := fun e he => by
      rw [hcov, List.mem_append, List.mem_singleton] at he
      rcases he with he | rfl
      · exact (hC.truthful e he).congr hC.distinct hd (hpast e he)
      · exact hmatch
    covered := fun s hs => by
      rw [hcov]
      by_cases hso : s ∈ db.tradingCalendar
      · obtain ⟨e, he, h⟩ := hC.covered s hso
        exact ⟨e, List.mem_append_left _ he, h⟩
      · obtain ⟨hrow, hnow, -⟩ := new_row hC hS hs hso
        refine ⟨c, by simp, ?_, by rw [hnow, havailable]⟩
        rw [hstart, hend]
        exact hS.inRange s hrow }

end Step

/-- A fetch whose coverage key is stored brings nothing new: its digest is that of an earlier fetch, and the
    digests of different calendars differ. -/
theorem coherent_of_stored {c : CalendarCoverage} (hC : Coherent sha256 fs db) (hS : Synced sha256 db f db' c)
    (hN : NoCollision sha256 (fs ++ [f])) {e : CalendarCoverage}
    (he : KeyedTable.find calendarCoverageTable.key db.calendarCoverage (calendarCoverageTable.key c) = some e) :
    Coherent sha256 (fs ++ [f]) db' := by
  have hcov : db'.calendarCoverage = db.calendarCoverage := by
    rw [hS.coverages]
    exact KeyedTable.insertNew_of_some he
  obtain ⟨e', he', hagree⟩ := hS.agreeCoverage
  rw [hcov, he] at he'
  cases he'
  have hsha : e.sessionsSha256 = c.sessionsSha256 :=
    of_decide_eq_true (hagree _ (List.mem_cons_of_mem _ List.mem_cons_self))
  obtain ⟨g, hg, hfetched⟩ := hC.fetched e (KeyedTable.find_some he).1
  have htext : calendarText (f.rows sha256) = calendarText (g.rows sha256) := by
    refine hN f (by simp) g (List.mem_append_left _ hg) ?_
    exact (hS.coverage.2.2.2.symm.trans hsha.symm).trans hfetched
  have hnewline : ∀ h : CalendarFetch, ∀ r ∈ h.rows sha256, '\n' ∉ r.sourceVersion.val.toList := by
    intro h r hr
    obtain ⟨m, -, rfl⟩ := mem_rows.mp hr
    exact newline_notMem_version m
  have hkept : ∀ r ∈ f.rows sha256,
      (KeyedTable.find tradingCalendarTable.key db.tradingCalendar (tradingCalendarTable.key r)).isSome := by
    intro r hr
    obtain ⟨r', hr', hdate, hversion⟩ := versions_of_calendarText_eq (hnewline f) (hnewline g) htext r hr
    have hkey : tradingCalendarTable.key r' = tradingCalendarTable.key r := Prod.ext hdate hversion
    rw [← hkey]
    exact hC.kept g hg r' hr'
  have hdb : db' = db := by
    obtain ⟨ts, cs⟩ := db'
    have hts : ts = db.tradingCalendar := hS.sessions.trans (KeyedTable.insertAll_of_forall_some hkept)
    rw [hts, show cs = db.calendarCoverage from hcov]
  rw [hdb]
  exact {
    hC with
    stamped_sessions := fun s hs => (hC.stamped_sessions s hs).imp fun _ h => ⟨List.mem_append_left _ h.1, h.2⟩
    stamped_coverage := fun x hx => (hC.stamped_coverage x hx).imp fun _ h => ⟨List.mem_append_left _ h.1, h.2⟩
    fetched := fun x hx => (hC.fetched x hx).imp fun _ h => ⟨List.mem_append_left _ h.1, h.2⟩
    kept := fun h hh r hr => by
      rcases List.mem_append.mp hh with hh | hh
      · exact hC.kept h hh r hr
      · exact hkept r (List.mem_singleton.mp hh ▸ hr) }

/-- What one sync keeps. -/
theorem Coherent.sync {c : CalendarCoverage} (hC : Coherent sha256 fs db) (hS : Synced sha256 db f db' c)
    (hR : Revises db f) (hlater : ∀ g ∈ fs, g.now.instant < f.now.instant) (hN : NoCollision sha256 (fs ++ [f])) :
    Coherent sha256 (fs ++ [f]) db' := by
  cases hfind : KeyedTable.find calendarCoverageTable.key db.calendarCoverage (calendarCoverageTable.key c) with
  | none => exact coherent_of_new hC hS hR hlater hfind
  | some e => exact coherent_of_stored hC hS hN hfind

/-! ### Reading after the last sync -/

/-- Coherent tables are read as of any time from the last fetch on, and show the newest version of each date. -/
theorem Coherent.read (hC : Coherent sha256 fs db) {asOf : AwareDatetime}
    (hasOf : ∀ g ∈ fs, g.now.instant ≤ asOf.instant) :
    ∃ cal, tradingCalendar sha256 db asOf = .ok cal ∧
      (∀ c ∈ db.calendarCoverage, (c.rangeStart, c.rangeEnd) ∈ cal.ranges) ∧
      (∀ d, (∀ s ∈ db.tradingCalendar, s.sessionDate ≠ d) → cal.sessions.get? d = none) ∧
      ∀ s ∈ db.tradingCalendar, (∀ s' ∈ db.tradingCalendar, s'.sessionDate = s.sessionDate →
        s'.availableAt.instant ≤ s.availableAt.instant) → cal.sessions.get? s.sessionDate = some s := by
  have hsessions : ∀ s, s ∈ calendarSessions db asOf ↔ s ∈ db.tradingCalendar := by
    intro s
    rw [calendarSessions, (List.perm_insertionSort _ _).mem_iff, List.mem_filter, and_iff_left_iff_imp]
    intro hs
    obtain ⟨g, hg, hnow⟩ := hC.stamped_sessions s hs
    rw [hnow]
    exact decide_eq_true (hasOf g hg)
  have hcoverage : ∀ c, c ∈ calendarCoverage db asOf ↔ c ∈ db.calendarCoverage := by
    intro c
    rw [calendarCoverage, (List.perm_insertionSort _ _).mem_iff, List.mem_filter, and_iff_left_iff_imp]
    intro hc
    obtain ⟨g, hg, hnow⟩ := hC.stamped_coverage c hc
    rw [hnow]
    exact decide_eq_true (hasOf g hg)
  have hd : DistinctTimes (calendarSessions db asOf) := by
    intro a ha b hb
    exact hC.distinct a ((hsessions a).mp ha) b ((hsessions b).mp hb)
  have hmatch : ∀ c ∈ calendarCoverage db asOf, Matches sha256 (calendarSessions db asOf) c := fun c hc =>
    (hC.truthful c ((hcoverage c).mp hc)).congr hC.distinct hd fun s _ => (hsessions s).symm
  have hcovered : ∀ s ∈ calendarSessions db asOf, ∃ c ∈ calendarCoverage db asOf,
      (c.rangeStart ≤ s.sessionDate ∧ s.sessionDate ≤ c.rangeEnd) ∧ s.availableAt.instant ≤ c.availableAt.instant := by
    intro s hs
    obtain ⟨c, hc, h⟩ := hC.covered s ((hsessions s).mp hs)
    exact ⟨c, (hcoverage c).mpr hc, h⟩
  obtain ⟨cal, hcal, hranges, hget⟩ := buildCalendar_ok hmatch hcovered
  refine ⟨cal, hcal, fun c hc => hranges c ((hcoverage c).mpr hc), fun d hno => ?_, fun s hs hnewest => ?_⟩
  · rw [hget]
    refine List.argmax_eq_none.mpr (List.filter_eq_nil_iff.mpr fun s hs hsd => ?_)
    exact hno s ((hsessions s).mp hs) (of_decide_eq_true hsd)
  · rw [hget, latest_eq_some]
    · simp only [List.mem_filter, decide_eq_true_eq, hsessions]
      exact ⟨⟨hs, trivial⟩, fun s' hs' => hnewest s' hs'.1 hs'.2⟩
    · simp only [List.mem_filter, decide_eq_true_eq]
      rintro a ⟨ha, had⟩ b ⟨hb, hbd⟩ hab
      exact hd a ha b hb (had.trans hbd.symm) hab

theorem status_of_covered {cal : TradingCalendar} {start stop d : Date} (h : (start, stop) ∈ cal.ranges)
    (hd : start ≤ d ∧ d ≤ stop) : cal.status d = if (cal.sessions.get? d).isSome then .open else .closed :=
  if_pos (List.any_eq_true.mpr ⟨_, h, decide_eq_true hd⟩)

/-- The read after a sync agrees with its fetch. -/
theorem agrees_synced {c : CalendarCoverage} (hC : Coherent sha256 fs db) (hS : Synced sha256 db f db' c)
    (hR : Revises db f) (hlater : ∀ g ∈ fs, g.now.instant < f.now.instant) (hC' : Coherent sha256 (fs ++ [f]) db')
    {asOf : AwareDatetime} (hasOf : f.now.instant ≤ asOf.instant) :
    ∃ cal, tradingCalendar sha256 db' asOf = .ok cal ∧ Agrees cal f := by
  have hreadable : ∀ g ∈ fs ++ [f], g.now.instant ≤ asOf.instant := by
    intro g hg
    rcases List.mem_append.mp hg with hg | hg
    · exact (hlater g hg).le.trans hasOf
    · rw [List.mem_singleton.mp hg]
      exact hasOf
  obtain ⟨cal, hcal, hranges, hnone, hnewest⟩ := hC'.read hreadable
  have hrange : (f.start, f.stop) ∈ cal.ranges := by
    obtain ⟨e, he, -⟩ := hS.agreeCoverage
    obtain ⟨hmem, hkey⟩ := KeyedTable.find_some he
    obtain ⟨-, hstart, hend, -⟩ := Prod.mk.inj hkey |>.imp id fun h => Prod.mk.inj h |>.imp id Prod.mk.inj
    have he := hranges e hmem
    rwa [hstart, hend, hS.coverage.1] at he
  refine ⟨cal, hcal, fun m hm => ?_, fun d hge hle hno => ?_⟩
  · have hrow : toTradingSession sha256 f.now m ∈ f.rows sha256 := mem_rows.mpr ⟨m, hm, rfl⟩
    obtain ⟨s, hs, hfields, hsn⟩ := newest_synced hC hS hR hlater hrow
    obtain ⟨hdate, htimes⟩ := Prod.mk.inj hfields
    obtain ⟨hopen, hrest⟩ := Prod.mk.inj htimes
    have hdate : s.sessionDate = m.sessionDate := hdate
    have hget := hnewest s hs fun s' hs' hsd => hsn s' hs' (hsd.trans hdate)
    rw [hdate] at hget
    have hstatus : cal.status m.sessionDate = .open := by
      have hin : f.start ≤ m.sessionDate ∧ m.sessionDate ≤ f.stop := hS.inRange _ hrow
      rw [status_of_covered hrange hin, hget]
      rfl
    refine ⟨hstatus, s, ?_, hdate, hopen, (Prod.mk.inj hrest).1⟩
    simp only [TradingCalendar.session, hstatus, hget]
  · have hget := hnone d fun s hs hsd => by
      obtain ⟨m, hm, hmd⟩ := listed hC hS hR hs (hsd ▸ hge) (hsd ▸ hle)
      exact hno m hm (hmd.trans hsd)
    rw [status_of_covered hrange ⟨hge, hle⟩, hget]
    rfl

/-! ### Runs -/

theorem syncAll_append_eq_ok {g : CalendarFetch} : syncAll sha256 db (fs ++ [g]) = .ok db' ↔
    ∃ db₁ n, syncAll sha256 db fs = .ok db₁ ∧ syncCalendar sha256 db₁ g = .ok (db', n) := by
  rw [syncAll, List.foldlM_append]
  constructor
  · intro h
    obtain ⟨db₁, hdb₁, h⟩ := Except.bind_eq_ok.mp h
    rw [List.foldlM_cons] at h
    obtain ⟨db₂, hdb₂, h⟩ := Except.bind_eq_ok.mp h
    cases h
    cases hs : syncCalendar sha256 db₁ g with
    | error e =>
      rw [hs] at hdb₂
      cases hdb₂
    | ok x =>
      rw [hs] at hdb₂
      cases hdb₂
      exact ⟨db₁, x.2, hdb₁, hs⟩
  · rintro ⟨db₁, n, hdb₁, hs⟩
    refine Except.bind_eq_ok.mpr ⟨db₁, hdb₁, ?_⟩
    rw [List.foldlM_cons, hs]
    rfl

/-- Each fetch only adds to and revises what the ones before it stored. -/
def RevisesOnly (sha256 : String → Sha256Hex) (fs : List CalendarFetch) : Prop :=
  ∀ before f after, fs = before ++ f :: after → ∀ db, syncAll sha256 .empty before = .ok db → Revises db f

/-- The fetches happen one after another. -/
def Increasing (fs : List CalendarFetch) : Prop := fs.Pairwise fun f g => f.now.instant < g.now.instant

theorem RevisesOnly.init (h : RevisesOnly sha256 (fs ++ [f])) : RevisesOnly sha256 fs :=
  fun before g after heq => h before g (after ++ [f]) (by rw [heq, List.append_assoc, List.cons_append])

theorem RevisesOnly.last (h : RevisesOnly sha256 (fs ++ [f])) (hsync : syncAll sha256 .empty fs = .ok db) :
    Revises db f := h fs f [] rfl db hsync

theorem Increasing.init (h : Increasing (fs ++ [f])) : Increasing fs := (List.pairwise_append.mp h).1

theorem Increasing.last (h : Increasing (fs ++ [f])) : ∀ g ∈ fs, g.now.instant < f.now.instant :=
  fun g hg => (List.pairwise_append.mp h).2.2 g hg f List.mem_cons_self

theorem NoCollision.init (h : NoCollision sha256 (fs ++ [f])) : NoCollision sha256 fs :=
  fun a ha b hb => h a (List.mem_append_left _ ha) b (List.mem_append_left _ hb)

/-- Every run of revising fetches leaves the tables coherent. -/
theorem syncAll_coherent (hsync : syncAll sha256 .empty fs = .ok db) (hincreasing : Increasing fs)
    (hrevises : RevisesOnly sha256 fs) (hcollision : NoCollision sha256 fs) : Coherent sha256 fs db := by
  induction fs using List.reverseRecOn generalizing db with
  | nil =>
    cases hsync
    exact Coherent.empty sha256
  | append_singleton fs f ih =>
    obtain ⟨db₁, n, hsync₁, hlast⟩ := syncAll_append_eq_ok.mp hsync
    have hC := ih hsync₁ hincreasing.init hrevises.init hcollision.init
    obtain ⟨c, hS⟩ := syncCalendar_eq_ok hlast
    exact hC.sync hS (hrevises.last hsync₁) hincreasing.last hcollision

/-- After any run of successful complete fetches at increasing times that remove no stored session of their
    range and reinstate no superseded version, the calendar read as of the last fetch or later succeeds and
    agrees with that fetch on every date of its range. -/
theorem tradingCalendar_follows {asOf : AwareDatetime} (hsync : syncAll sha256 .empty (fs ++ [f]) = .ok db)
    (hincreasing : Increasing (fs ++ [f])) (hrevises : RevisesOnly sha256 (fs ++ [f]))
    (hcollision : NoCollision sha256 (fs ++ [f])) (hasOf : f.now.instant ≤ asOf.instant) :
    ∃ cal, tradingCalendar sha256 db asOf = .ok cal ∧ Agrees cal f := by
  obtain ⟨db₁, n, hsync₁, hlast⟩ := syncAll_append_eq_ok.mp hsync
  have hC := syncAll_coherent hsync₁ hincreasing.init hrevises.init hcollision.init
  obtain ⟨c, hS⟩ := syncCalendar_eq_ok hlast
  have hR := hrevises.last hsync₁
  exact agrees_synced hC hS hR hincreasing.last (hC.sync hS hR hincreasing.last hcollision) hasOf

/-! ### One date: an early close, its reversal and its removal -/

/-- 2024-03-04 at an hour of the day. -/
def marchFourth (hour : Int) : AwareDatetime := ⟨1709510400000000 + hour * 3600000000, 0⟩

/-- The session of 2024-03-04, from 14:30 UTC to a later hour. -/
def marchSession (close : Int) (h : (marchFourth 14).instant + 1800000000 < (marchFourth close).instant) : MarketSession where
  sessionDate := 19786
  opensAt := ⟨(marchFourth 14).instant + 1800000000, 0⟩
  closesAt := marchFourth close
  ordered := h

def regularClose : MarketSession := marchSession 21 (by decide)

def earlyClose : MarketSession := marchSession 18 (by decide)

/-- A fetch of the one date. -/
def marchFetch (sessions : List MarketSession) (hour : Int) : CalendarFetch := ⟨19786, 19786, sessions, marchFourth hour⟩

/-- SHA-256 of the texts of these fetches. -/
def marchSha256 (text : String) : Sha256Hex :=
  if text = "2024-03-04|2024-03-04T14:30:00+00:00|2024-03-04T21:00:00+00:00" then
    ⟨"4d5dc731ad54eae15db182e935d2e3fe3a6977e3ebeb40dc7240a15342e4008a", by decide⟩
  else if text = "2024-03-04|2024-03-04T14:30:00+00:00|2024-03-04T18:00:00+00:00" then
    ⟨"9f2b5cb71ada8b10970a887cfa7829baec81e7c45abc589c0272c183f047754a", by decide⟩
  else if text = "2024-03-04|2024-03-04T14:30:00.000000+00:00|2024-03-04T21:00:00.000000+00:00|alpaca_calendar:4d5dc731" then
    ⟨"9b9722a49276b625a7d1f86154d66b4e1ae191ad736f1556222c7d01f5478087", by decide⟩
  else if text = "2024-03-04|2024-03-04T14:30:00.000000+00:00|2024-03-04T18:00:00.000000+00:00|alpaca_calendar:9f2b5cb7" then
    ⟨"9a6aab73ce2b241bae965b9d7c8f67a5371029221dafe7917ae022b3ac837a6d", by decide⟩
  else ⟨"e3b0c44298fc1c149afbf4c8996fb92427ae41e4649b934ca495991b7852b855", Samples.sha256_empty⟩

instance (db : CalendarTables) (f : CalendarFetch) : Decidable (Revises db f) :=
  decidable_of_iff ((f.sessions.map (·.sessionDate)).Nodup ∧
    (∀ s ∈ db.tradingCalendar, f.start ≤ s.sessionDate → s.sessionDate ≤ f.stop →
      ∃ m ∈ f.sessions, m.sessionDate = s.sessionDate) ∧
    ∀ m ∈ f.sessions, ∀ s ∈ db.tradingCalendar, s.sessionDate = m.sessionDate →
      s.openAt.instant = m.opensAt.instant → s.closeAt.instant = m.closesAt.instant →
      ∀ s' ∈ db.tradingCalendar, s'.sessionDate = m.sessionDate → s'.availableAt.instant ≤ s.availableAt.instant)
    ⟨fun h => ⟨h.1, h.2.1, h.2.2⟩, fun h => ⟨h.one_a_day, h.none_removed, h.none_reinstated⟩⟩

instance (sha256 : String → Sha256Hex) (fs : List CalendarFetch) : Decidable (NoCollision sha256 fs) :=
  inferInstanceAs (Decidable (∀ f ∈ fs, ∀ g ∈ fs, _ → _))

instance (fs : List CalendarFetch) : Decidable (Increasing fs) := inferInstanceAs (Decidable (fs.Pairwise _))

/-- A test of the tables that a run leaves. -/
def afterSync (fs : List CalendarFetch) (p : CalendarTables → Bool) : Bool :=
  match syncAll marchSha256 .empty fs with
  | .ok db => p db
  | .error _ => false

theorem exists_of_afterSync {fs : List CalendarFetch} {p : CalendarTables → Bool} (h : afterSync fs p = true) :
    ∃ db, syncAll marchSha256 .empty fs = .ok db ∧ p db = true := by
  unfold afterSync at h
  cases hs : syncAll marchSha256 .empty fs with
  | ok db =>
    rw [hs] at h
    exact ⟨db, rfl, h⟩
  | error e =>
    rw [hs] at h
    cases h

/-- The early close of 2024-03-04 replaces the regular one. -/
theorem tradingCalendar_follows_earlyClose : ∃ db cal,
    syncAll marchSha256 .empty [marchFetch [regularClose] 1, marchFetch [earlyClose] 2] = .ok db ∧
    tradingCalendar marchSha256 db (marchFourth 2) = .ok cal ∧ Agrees cal (marchFetch [earlyClose] 2) := by
  obtain ⟨db, hdb, -⟩ := exists_of_afterSync
    (by decide +kernel : afterSync [marchFetch [regularClose] 1, marchFetch [earlyClose] 2] (fun _ => true) = true)
  obtain ⟨db₁, hdb₁, hrevises⟩ := exists_of_afterSync
    (by decide +kernel : afterSync [marchFetch [regularClose] 1]
      (fun db => decide (Revises db (marchFetch [earlyClose] 2))) = true)
  have hR : RevisesOnly marchSha256 ([marchFetch [regularClose] 1] ++ [marchFetch [earlyClose] 2]) := by
    intro before f after heq db hsync
    match before, heq with
    | [], heq =>
      cases heq
      cases hsync
      decide
    | [_], heq =>
      cases heq
      rw [hdb₁] at hsync
      cases hsync
      exact of_decide_eq_true hrevises
    | _ :: _ :: before, heq => simp at heq
  have hsync : syncAll marchSha256 .empty ([marchFetch [regularClose] 1] ++ [marchFetch [earlyClose] 2]) = .ok db := hdb
  obtain ⟨cal, hcal, hagrees⟩ := tradingCalendar_follows hsync
    (by decide +kernel) hR (by decide +kernel) (le_refl (marchFourth 2).instant)
  exact ⟨db, cal, hdb, hcal, hagrees⟩

/-- Whether the session is read with the early close. -/
def closesEarly (db : CalendarTables) : Bool :=
  match tradingCalendar marchSha256 db (marchFourth 3) with
  | .ok cal =>
    match cal.session 19786 with
    | .ok s => decide (s.closeAt.instant = (marchFourth 18).instant)
    | .error _ => false
  | .error _ => false

/-- Whether the read fails on the session. -/
def failsRead (db : CalendarTables) : Bool := tradingCalendar marchSha256 db (marchFourth 2) matches .error (.mismatch 19786 19786)

/-- An early close that is taken back is still shown, and a session that is removed fails the read. -/
theorem reverted_and_removed_not_followed :
    (∃ db cal, Increasing [marchFetch [regularClose] 1, marchFetch [earlyClose] 2, marchFetch [regularClose] 3] ∧
      syncAll marchSha256 .empty
        [marchFetch [regularClose] 1, marchFetch [earlyClose] 2, marchFetch [regularClose] 3] = .ok db ∧
      tradingCalendar marchSha256 db (marchFourth 3) = .ok cal ∧ ¬Agrees cal (marchFetch [regularClose] 3)) ∧
    ∃ db, Increasing [marchFetch [regularClose] 1, marchFetch [] 2] ∧
      syncAll marchSha256 .empty [marchFetch [regularClose] 1, marchFetch [] 2] = .ok db ∧
      tradingCalendar marchSha256 db (marchFourth 2) matches .error (.mismatch 19786 19786) := by
  constructor
  · obtain ⟨db, hdb, hread⟩ := exists_of_afterSync (by decide +kernel :
      afterSync [marchFetch [regularClose] 1, marchFetch [earlyClose] 2, marchFetch [regularClose] 3] closesEarly = true)
    rw [closesEarly] at hread
    cases hcal : tradingCalendar marchSha256 db (marchFourth 3) with
    | error e => simp [hcal] at hread
    | ok cal =>
      refine ⟨db, cal, by decide, hdb, hcal, fun h => ?_⟩
      obtain ⟨-, s, hs, -, -, hclose⟩ := h.opened regularClose List.mem_cons_self
      have hs : cal.session 19786 = .ok s := hs
      rw [hcal] at hread
      simp only [hs, decide_eq_true_eq] at hread
      rw [hread] at hclose
      exact absurd hclose (by decide)
  · obtain ⟨db, hdb, hread⟩ := exists_of_afterSync (by decide +kernel :
      afterSync [marchFetch [regularClose] 1, marchFetch [] 2] failsRead = true)
    exact ⟨db, by decide, hdb, hread⟩

end ReferenceData
end AsymmetricCommittee
