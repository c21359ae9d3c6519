import AsymmetricCommittee.Evaluation.CalendarRules
import AsymmetricCommittee.Store.Immutable

/-! The trading calendar in the store: the two append-only tables of session versions and coverage records,
    their writer (`store/write.py`) and their point-in-time readers (`store/as_of.py`). -/

namespace AsymmetricCommittee

/-- The rows of `trading_calendar` and of `calendar_coverage`, oldest first. -/
structure CalendarTables where
  tradingCalendar : List TradingSession
  calendarCoverage : List CalendarCoverage

namespace CalendarTables

def empty : CalendarTables := ⟨[], []⟩

end CalendarTables

namespace Store

def tradingCalendarTable : ImmutableTable TradingSession (Date × Version) where
  name := .tradingCalendar
  key s := (s.sessionDate, s.sourceVersion)
  payload := [Column.of "open_at" fun s => s.openAt.instant, Column.of "close_at" fun s => s.closeAt.instant,
    Column.of "event_time" fun s => s.eventTime.instant]

def calendarCoverageTable : ImmutableTable CalendarCoverage (Label × Date × Date × Version) where
  name := .calendarCoverage
  key c := (c.source, c.rangeStart, c.rangeEnd, c.sourceVersion)
  payload := [Column.of "session_count" fun c => c.sessionCount, Column.of "sessions_sha256" fun c => c.sessionsSha256]

section
variable (sha256 : String → Sha256Hex)

/-- `insert_calendar_range`: sessions and the coverage record that vouches for them, in one savepoint. The
    second part of the result is how many sessions were new. -/
def insertCalendarRange (db : CalendarTables) (sessions : List TradingSession) (coverage : CalendarCoverage) :
    Except StoreError (CalendarTables × Nat) :=
  if coverage.sessionCount ≠ sessions.length ∨ coverage.sessionsSha256 ≠ calendarHash sha256 sessions then
    .error .coverageMismatch
  else if sessions.any fun s => decide ¬(coverage.rangeStart ≤ s.sessionDate ∧ s.sessionDate ≤ coverage.rangeEnd) then
    .error .sessionOutsideRange
  else if sessions.any fun s => decide (s.availableAt.instant ≠ coverage.availableAt.instant) then
    .error .availableAtDiffers
  else do
    let (tradingCalendar, n) ← insertImmutable tradingCalendarTable db.tradingCalendar sessions
    let (calendarCoverage, _) ← insertImmutable calendarCoverageTable db.calendarCoverage [coverage]
    return (⟨tradingCalendar, calendarCoverage⟩, n)

end

/-- `calendar_sessions`: every session version knowable at `asOf`. -/
def calendarSessions (db : CalendarTables) (asOf : AwareDatetime) : List TradingSession :=
  (db.tradingCalendar.filter fun s => decide (s.availableAt.instant ≤ asOf.instant)).insertionSort fun a b =>
    toLex (a.sessionDate, CalendarRules.versionKey a) ≤ toLex (b.sessionDate, CalendarRules.versionKey b)

/-- `calendar_coverage`: every coverage record knowable at `asOf`. -/
def calendarCoverage (db : CalendarTables) (asOf : AwareDatetime) : List CalendarCoverage :=
  (db.calendarCoverage.filter fun c => decide (c.availableAt.instant ≤ asOf.instant)).insertionSort fun a b =>
    toLex (a.rangeStart, toLex (a.rangeEnd, CalendarRules.coverageKey a)) ≤
      toLex (b.rangeStart, toLex (b.rangeEnd, CalendarRules.coverageKey b))

/-- `trading_calendar`: the calendar as known at `asOf`, from one point-in-time view. -/
def tradingCalendar (sha256 : String → Sha256Hex) (db : CalendarTables) (asOf : AwareDatetime) :
    Except CalendarCoverageError TradingCalendar :=
  CalendarRules.buildCalendar sha256 (calendarSessions db asOf) (calendarCoverage db asOf)

/-! ### What the writer does -/

theorem insertCalendarRange_eq_ok {sha256 : String → Sha256Hex} {db db' : CalendarTables}
    {sessions : List TradingSession} {coverage : CalendarCoverage} {n : Nat}
    (h : insertCalendarRange sha256 db sessions coverage = .ok (db', n)) :
    db'.tradingCalendar = KeyedTable.insertAll tradingCalendarTable.key db.tradingCalendar sessions ∧
    db'.calendarCoverage = KeyedTable.insertAll calendarCoverageTable.key db.calendarCoverage [coverage] ∧
    (∀ s ∈ sessions, ∃ e, KeyedTable.find tradingCalendarTable.key db'.tradingCalendar
      (tradingCalendarTable.key s) = some e ∧ tradingCalendarTable.Agree e s) ∧
    ∃ e, KeyedTable.find calendarCoverageTable.key db'.calendarCoverage (calendarCoverageTable.key coverage) = some e ∧
      calendarCoverageTable.Agree e coverage := by
  unfold insertCalendarRange at h
  split at h
  · cases h
  split at h
  · cases h
  split at h
  · cases h
  obtain ⟨⟨ts, k⟩, hts, h⟩ := Except.bind_eq_ok.mp h
  obtain ⟨⟨cs, k'⟩, hcs, h⟩ := Except.bind_eq_ok.mp h
  cases h
  obtain ⟨hagree, rfl, -⟩ := insertImmutable_eq_ok.mp hts
  obtain ⟨hagree', rfl, -⟩ := insertImmutable_eq_ok.mp hcs
  exact ⟨rfl, rfl, hagree, hagree' coverage List.mem_cons_self⟩

end Store
end AsymmetricCommittee
