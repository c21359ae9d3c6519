import AsymmetricCommittee.Contracts.MarketData

/-! Scheduling rules over the broker's official trading calendar (`orchestration/schedule.py`): the weekly decision time
    is the close of the last session of an ISO week, and its orders go out in the first session after it. The Eastern date
    of an instant is a parameter. -/

namespace AsymmetricCommittee

/-- `MarketCalendar.sessions`: the sessions from a date to another, oldest first. -/
abbrev MarketCalendar := Date → Date → List MarketSession

namespace Schedule

/-- Microseconds of a number of minutes. -/
def minutes (n : Nat) : Int := n * 60000000

/-- `EXECUTION_DELAY`. -/
def executionDelay : Int := minutes 30

/-- `_LOOKAROUND_DAYS`. -/
def lookaroundDays : Int := 14

inductive WindowState where
  | early
  | open
  | expired
  deriving DecidableEq, Repr

/-- `NoSessionError`: the calendar returned no session where one must exist. -/
inductive NoSessionError where
  /-- `no trading session after` -/
  | noSessionAfter (asOf : AwareDatetime)
  /-- `calendar has no session after` -/
  | endsAfter (day : Date)
  deriving DecidableEq, Repr

/-- The ISO week of a date, counted from the one of 1970-01-01: two dates have one week here exactly when
    `isocalendar()[:2]` gives them one year and week. -/
def isoWeek (day : Date) : Int := (day + 3) / 7

variable (et : Int → Date)

/-- The first session after the Eastern date of `asOf`. -/
def nextSession (cal : MarketCalendar) (asOf : AwareDatetime) : Except NoSessionError MarketSession :=
  let firstDay := et asOf.instant + 1
  match (cal firstDay (firstDay + lookaroundDays)).filter fun s => decide (firstDay ≤ s.sessionDate) with
  | [] => .error (.noSessionAfter asOf)
  | s :: _ => .ok s

/-- `execution_window`: the start and the end of the time in which a run committed at `asOf` may trade. -/
def executionWindow (cal : MarketCalendar) (asOf : AwareDatetime) (delay : Int) :
    Except NoSessionError (AwareDatetime × AwareDatetime) :=
  (nextSession et cal asOf).map fun s => (s.opensAt.plus delay, s.closesAt)

def windowState (now : AwareDatetime) (window : AwareDatetime × AwareDatetime) : WindowState :=
  if now.instant < window.1.instant then .early
  else if now.instant < window.2.instant then .open
  else .expired

/-- `weekly_as_of`: the close of the last session closed by `now`, if the session after it is in another week. -/
def weeklyAsOf (cal : MarketCalendar) (now : AwareDatetime) : Except NoSessionError (Option AwareDatetime) :=
  let today := et now.instant
  let sessions := cal (today - lookaroundDays) (today + lookaroundDays)
  match (sessions.filter fun s => decide (s.closesAt.instant ≤ now.instant)).getLast? with
  | none => .ok none
  | some last =>
    match sessions.filter fun s => decide (last.sessionDate < s.sessionDate) with
    | [] => .error (.endsAfter last.sessionDate)
    | next :: _ => .ok (if isoWeek next.sessionDate = isoWeek last.sessionDate then none else some last.closesAt)

end Schedule
end AsymmetricCommittee
