import AsymmetricCommittee.Store.Calendar

/-! Calendar ingestion (`ingest/reference_data.py`): a complete fetch of a date range becomes versioned
    session rows and one coverage row. -/

namespace AsymmetricCommittee

/-- `CALENDAR_SOURCE`. -/
def calendarSource : Label := ⟨"alpaca_calendar", by decide⟩

/-- What `sync_calendar` raises. -/
inductive SyncCalendarError where
  /-- `calendar range ends before it starts` -/
  | rangeEndsBeforeStart
  /-- `the broker returned a session outside the requested range` -/
  | sessionOutsideRange
  | store (error : StoreError)
  deriving DecidableEq, Repr

namespace ReferenceData

/-- The first `n` digits. -/
def hexPrefix (n : Nat) (h : Sha256Hex) : String := String.ofList (h.val.toList.take n)

theorem length_hexPrefix (n : Nat) (h : Sha256Hex) : (hexPrefix n h).length ≤ n := by
  simp [hexPrefix]

variable (sha256 : String → Sha256Hex)

/-- The text that versions a session: `date|open|close`, instants in UTC. -/
def sessionText (s : MarketSession) : String :=
  IsoTime.isoDate s.sessionDate ++ "|" ++ IsoTime.isoUtc s.opensAt.instant ++ "|" ++ IsoTime.isoUtc s.closesAt.instant

def sessionVersion (s : MarketSession) : Version :=
  ⟨calendarSource.val ++ ":" ++ hexPrefix 8 (sha256 (sessionText s)), by
    have hlen := length_hexPrefix 8 (sha256 (sessionText s))
    have hsource : (calendarSource.val ++ ":").length = 16 := by decide
    rw [String.length_append, hsource]
    omega⟩

/-- The row of one broker session; a changed session is a new `source_version`. -/
def toTradingSession (fetchedAt : AwareDatetime) (s : MarketSession) : TradingSession where
  eventTime := s.opensAt
  availableAt := fetchedAt
  sourceVersion := sessionVersion sha256 s
  sessionDate := s.sessionDate
  openAt := s.opensAt
  closeAt := s.closesAt
  closes_after := s.ordered
  event_is_open := rfl

/-- `to_trading_sessions`. -/
def toTradingSessions (sessions : List MarketSession) (fetchedAt : AwareDatetime) : List TradingSession :=
  sessions.map (toTradingSession sha256 fetchedAt)

def coverageVersion (digest : Sha256Hex) : Version :=
  ⟨"calendar_coverage:" ++ hexPrefix 16 digest, by
    have hlen := length_hexPrefix 16 digest
    have hname : "calendar_coverage:".length = 18 := by decide
    rw [String.length_append, hname]
    omega⟩

/-- `calendar_coverage_for`. -/
def calendarCoverageFor (sessions : List TradingSession) (start stop : Date) (h : start ≤ stop)
    (fetchedAt : AwareDatetime) : CalendarCoverage where
  source := calendarSource
  rangeStart := start
  rangeEnd := stop
  availableAt := fetchedAt
  sessionCount := sessions.length
  sessionsSha256 := calendarHash sha256 sessions
  sourceVersion := coverageVersion (calendarHash sha256 sessions)
  ordered := h

/-- One complete fetch: the range asked for, what the broker's calendar returned for it, and when. -/
structure CalendarFetch where
  start : Date
  stop : Date
  sessions : List MarketSession
  now : AwareDatetime

/-- `sync_calendar`, given what the fetch returned: its sessions and coverage are written atomically. -/
def syncCalendar (db : CalendarTables) (f : CalendarFetch) : Except SyncCalendarError (CalendarTables × Nat) :=
  if h : f.stop < f.start then .error .rangeEndsBeforeStart
  else
    let rows := toTradingSessions sha256 f.sessions f.now
    if rows.any fun r => decide ¬(f.start ≤ r.sessionDate ∧ r.sessionDate ≤ f.stop) then .error .sessionOutsideRange
    else
      let coverage := calendarCoverageFor sha256 rows f.start f.stop (not_lt.mp h) f.now
      (Store.insertCalendarRange sha256 db rows coverage).mapError .store

/-- A sequence of fetches, each synced into the tables that the ones before it left. -/
def syncAll (db : CalendarTables) (fs : List CalendarFetch) : Except SyncCalendarError CalendarTables :=
  fs.foldlM (fun db f => (syncCalendar sha256 db f).map Prod.fst) db

end ReferenceData
end AsymmetricCommittee
