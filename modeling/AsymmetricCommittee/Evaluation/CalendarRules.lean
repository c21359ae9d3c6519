import Mathlib
import AsymmetricCommittee.Contracts.MarketData
import AsymmetricCommittee.Lib.Dict
import AsymmetricCommittee.Lib.Except

/-! Trading-calendar reads that fail closed (`evaluation/calendar_rules.py`): a date is known only inside a
    range the calendar was fetched for completely, where a date without a session is a closed day. -/

namespace AsymmetricCommittee

/-- `CalendarCoverageError`: the calendar cannot answer. -/
inductive CalendarCoverageError where
  /-- `coverage does not match its visible sessions` -/
  | mismatch (rangeStart rangeEnd : Date)
  /-- `session was revised without a newer coverage record` -/
  | revised (day : Date)
  /-- `is not covered by a confirmed calendar range` -/
  | uncovered (day : Date)
  /-- `is not a trading session` -/
  | notASession (day : Date)
  /-- `calendar coverage ends before a session before or after` -/
  | endsBefore (day : Date)
  /-- `no session found from` -/
  | noSession (day : Date)
  deriving DecidableEq, Repr

/-- What a query of the calendar raises. -/
inductive CalendarError where
  | coverage (error : CalendarCoverageError)
  /-- `ValueError`: `horizon is at least one session` -/
  | horizon
  deriving DecidableEq, Repr

inductive SessionStatus where
  | open
  | closed
  | uncovered
  deriving DecidableEq, Repr

structure TradingCalendar where
  sessions : Dict Date TradingSession
  ranges : List (Date × Date)

namespace TradingCalendar

def status (cal : TradingCalendar) (day : Date) : SessionStatus :=
  if cal.ranges.any fun r => decide (r.1 ≤ day ∧ day ≤ r.2) then
    if (cal.sessions.get? day).isSome then .open else .closed
  else .uncovered

def session (cal : TradingCalendar) (day : Date) : Except CalendarCoverageError TradingSession :=
  match cal.status day with
  | .uncovered => .error (.uncovered day)
  | .closed => .error (.notASession day)
  | .open =>
    match cal.sessions.get? day with
    | some s => .ok s
    | none => .error (.notASession day)

/-- `_MAX_WALK_DAYS`. -/
def maxWalkDays : Nat := 3660

/-- The walk of `_step`, over at most a number of dates. -/
def walk (cal : TradingCalendar) (day direction : Int) : Nat → Date → Except CalendarCoverageError Date
  | 0, _ => .error (.noSession day)
  | n + 1, cursor =>
    match cal.status (cursor + direction) with
    | .uncovered => .error (.endsBefore day)
    | .open => .ok (cursor + direction)
    | .closed => walk cal day direction n (cursor + direction)

/-- `_step`: the nearest session strictly after (+1) or before (-1) a day over covered dates. -/
def stepDay (cal : TradingCalendar) (day direction : Int) : Except CalendarCoverageError Date :=
  cal.walk day direction maxWalkDays day

/-- The walk of `session_closing_after`. -/
def walkClosing (cal : TradingCalendar) (instant : Int) : Nat → Date → Except CalendarCoverageError TradingSession
  | 0, day => .error (.noSession day)
  | n + 1, day =>
    match cal.status day with
    | .uncovered => .error (.endsBefore day)
    | .open =>
      match cal.sessions.get? day with
      | some s => if instant < s.closeAt.instant then .ok s else walkClosing cal instant n (day + 1)
      | none => walkClosing cal instant n (day + 1)
    | .closed => walkClosing cal instant n (day + 1)

/-- `session_closing_after`: the first session from a day on that has not closed at an instant. -/
def sessionClosingAfter (cal : TradingCalendar) (instant : AwareDatetime) (startDay : Date) :
    Except CalendarCoverageError TradingSession :=
  cal.walkClosing instant.instant maxWalkDays startDay

def d0 (cal : TradingCalendar) (asOfSession : Date) : Except CalendarCoverageError Date := do
  let s ← cal.session asOfSession
  cal.stepDay s.sessionDate 1

def nextSession (cal : TradingCalendar) (day : Date) : Except CalendarCoverageError Date := cal.stepDay day 1

def previousSession (cal : TradingCalendar) (day : Date) : Except CalendarCoverageError Date := cal.stepDay day (-1)

/-- A number of steps to the next session. -/
def advance (cal : TradingCalendar) : Nat → Date → Except CalendarCoverageError Date
  | 0, cursor => .ok cursor
  | n + 1, cursor => do
    let next ← cal.stepDay cursor 1
    advance cal n next

/-- `horizon_session`: the session a number of trading days after `d0`, stored sessions only. -/
def horizonSession (cal : TradingCalendar) (d0 : Date) (horizon : Int) : Except CalendarError Date :=
  if horizon < 1 then .error .horizon
  else
    match cal.session d0 with
    | .error e => .error (.coverage e)
    | .ok s =>
      match cal.advance horizon.toNat s.sessionDate with
      | .error e => .error (.coverage e)
      | .ok day => .ok day

end TradingCalendar

namespace CalendarRules

/-- Keys are compared by the instant, then by the version. -/
instance keyPreorder : Preorder (Int ×ₗ String) := @Prod.Lex.instPreorder Int String Int.instLinearOrder.toPreorder _

/-- `(available_at, source_version)` of a session. -/
def versionKey (s : TradingSession) : Int ×ₗ String := toLex (s.availableAt.instant, s.sourceVersion.val)

/-- `(available_at, source_version)` of a coverage row. -/
def coverageKey (c : CalendarCoverage) : Int ×ₗ String := toLex (c.availableAt.instant, c.sourceVersion.val)

/-- `_latest`: the first version with the greatest key. -/
def latest (sessions : List TradingSession) : Option TradingSession := sessions.argmax versionKey

/-- The coverage row that stands for each range: the one with the greatest key. -/
def byRange (coverage : List CalendarCoverage) : Dict (Label × Date × Date) CalendarCoverage :=
  coverage.foldl (fun chosen c =>
    match chosen.get? (c.source, c.rangeStart, c.rangeEnd) with
    | none => chosen.set (c.source, c.rangeStart, c.rangeEnd) c
    | some e =>
      if coverageKey e < coverageKey c then chosen.set (c.source, c.rangeStart, c.rangeEnd) c else chosen) Dict.empty

/-- The versions of each session date, in the order given. -/
def versions (sessions : List TradingSession) : Dict Date (List TradingSession) :=
  sessions.foldl (fun vs s => vs.set s.sessionDate ((vs.get? s.sessionDate).getD [] ++ [s])) Dict.empty

/-- The session versions of a range that were current when its coverage row was written. -/
def current (vs : Dict Date (List TradingSession)) (c : CalendarCoverage) : List TradingSession :=
  vs.entries.filterMap fun e =>
    if c.rangeStart ≤ e.1 ∧ e.1 ≤ c.rangeEnd then
      latest (e.2.filter fun s => decide (s.availableAt.instant ≤ c.availableAt.instant))
    else none

section Build
variable (sha256 : String → Sha256Hex)

/-- Each chosen coverage row must describe exactly the versions current when it was written. -/
def checkCoverage (vs : Dict Date (List TradingSession)) (c : CalendarCoverage) : Except CalendarCoverageError Unit :=
  if (current vs c).length ≠ c.sessionCount ∨ calendarHash sha256 (current vs c) ≠ c.sessionsSha256 then
    .error (.mismatch c.rangeStart c.rangeEnd)
  else .ok ()

/-- The effective session of one date, from its versions. -/
def effectiveStep (chosen : List CalendarCoverage) (effective : Dict Date TradingSession)
    (e : Date × List TradingSession) : Except CalendarCoverageError (Dict Date TradingSession) :=
  let covering := chosen.filter fun c => decide (c.rangeStart ≤ e.1 ∧ e.1 ≤ c.rangeEnd)
  match latest e.2, (covering.map fun c => c.availableAt.instant).max? with
  | some newest, some available =>
    if available < newest.availableAt.instant then .error (.revised e.1) else .ok (effective.set e.1 newest)
  -- a session outside every confirmed range is not evidence of anything; no date has an empty list of versions
  | _, _ => .ok effective

/-- `build_calendar`: the calendar from every visible session version and coverage row. -/
def buildCalendar (sessions : List TradingSession) (coverage : List CalendarCoverage) :
    Except CalendarCoverageError TradingCalendar := do
  let chosen := (byRange coverage).values
  let vs := versions sessions
  let _ ← chosen.mapM (checkCoverage sha256 vs)
  let effective ← vs.entries.foldlM (effectiveStep chosen) Dict.empty
  let ranges := (chosen.map fun c => (c.rangeStart, c.rangeEnd)).dedup
  return ⟨effective, ranges.insertionSort fun a b => toLex a ≤ toLex b⟩

end Build

/-! ### The versions and the chosen rows -/

theorem get?_versions (sessions : List TradingSession) (d : Date) :
    (versions sessions).get? d =
      if (sessions.filter fun s => decide (s.sessionDate = d)) = [] then none
      else some (sessions.filter fun s => decide (s.sessionDate = d)) := by
  induction sessions using List.reverseRecOn with
  | nil => rfl
  | append_singleton l s ih =>
    have hfold : versions (l ++ [s]) =
        (versions l).set s.sessionDate (((versions l).get? s.sessionDate).getD [] ++ [s]) := by
      rw [versions, List.foldl_append]
      rfl
    rw [hfold, Dict.get?_set, List.filter_append]
    by_cases hd : d = s.sessionDate
    · subst hd
      rw [if_pos rfl, ih]
      split
      · next hnil => simp [hnil]
      · simp
    · rw [if_neg hd, ih]
      simp [show ¬s.sessionDate = d from fun h => hd h.symm]

theorem mem_versions {sessions : List TradingSession} {d : Date} {ss : List TradingSession}
    (h : (d, ss) ∈ (versions sessions).entries) :
    ss = sessions.filter (fun s => decide (s.sessionDate = d)) ∧ ss ≠ [] := by
  have hget := Dict.get?_eq_some.mpr h
  rw [get?_versions] at hget
  split at hget
  · cases hget
  · next hne => cases hget; exact ⟨rfl, hne⟩

theorem byRange_append (l : List CalendarCoverage) (c : CalendarCoverage) :
    byRange (l ++ [c]) =
      match (byRange l).get? (c.source, c.rangeStart, c.rangeEnd) with
      | none => (byRange l).set (c.source, c.rangeStart, c.rangeEnd) c
      | some e => if coverageKey e < coverageKey c then (byRange l).set (c.source, c.rangeStart, c.rangeEnd) c
          else byRange l := by
  rw [byRange, List.foldl_append]
  rfl

/-- What stands for a range is a row of that range. -/
theorem get?_byRange {coverage : List CalendarCoverage} {k : Label × Date × Date} {c : CalendarCoverage}
    (h : (byRange coverage).get? k = some c) : c ∈ coverage ∧ k = (c.source, c.rangeStart, c.rangeEnd) := by
  induction coverage using List.reverseRecOn generalizing c with
  | nil => cases h
  | append_singleton l x ih =>
    have hset : ((byRange l).set (x.source, x.rangeStart, x.rangeEnd) x).get? k = some c →
        c ∈ l ++ [x] ∧ k = (c.source, c.rangeStart, c.rangeEnd) := by
      intro h
      rw [Dict.get?_set] at h
      split at h
      · next hk => cases h; exact ⟨by simp, hk⟩
      · exact ⟨List.mem_append_left _ (ih h).1, (ih h).2⟩
    rw [byRange_append] at h
    split at h
    · exact hset h
    · split at h
      · exact hset h
      · exact ⟨List.mem_append_left _ (ih h).1, (ih h).2⟩

/-- No row of a range has a greater key than the one that stands for it. -/
theorem exists_byRange {coverage : List CalendarCoverage} {c : CalendarCoverage} (hc : c ∈ coverage) :
    ∃ e, (byRange coverage).get? (c.source, c.rangeStart, c.rangeEnd) = some e ∧ coverageKey c ≤ coverageKey e := by
  induction coverage using List.reverseRecOn with
  | nil => cases hc
  | append_singleton l x ih =>
    rw [byRange_append]
    rcases List.mem_append.mp hc with hc | hc
    · obtain ⟨e, he, hle⟩ := ih hc
      by_cases hk : (c.source, c.rangeStart, c.rangeEnd) = (x.source, x.rangeStart, x.rangeEnd)
      · rw [← hk, he]
        by_cases hlt : coverageKey e < coverageKey x
        · exact ⟨x, by simp [hlt, Dict.get?_set], hle.trans hlt.le⟩
        · exact ⟨e, by simp [hlt, he], hle⟩
      · refine ⟨e, ?_, hle⟩
        split
        · rw [Dict.get?_set, if_neg hk, he]
        · split
          · rw [Dict.get?_set, if_neg hk, he]
          · exact he
    · rw [List.mem_singleton.mp hc]
      split
      · exact ⟨x, by rw [Dict.get?_set, if_pos rfl], le_rfl⟩
      · next e he =>
        split
        · exact ⟨x, by rw [Dict.get?_set, if_pos rfl], le_rfl⟩
        · next hlt => exact ⟨e, he, not_lt.mp hlt⟩

end CalendarRules
end AsymmetricCommittee
