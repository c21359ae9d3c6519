import AsymmetricCommittee.Config.Loader
import AsymmetricCommittee.Evaluation.CalendarRules
import AsymmetricCommittee.Orchestration.Schedule

/-! The reference time of a run (`orchestration/references.py`): the open of the next stored session after its `as_of`, plus
    the configured delay. -/

namespace AsymmetricCommittee
namespace References

/-- `self._delay`: the delay that the service is built with. -/
def delayOf (config : RebalanceConfig) : Int := Schedule.minutes config.minutesAfterOpen

/-- `_reference_day`: D0 and the reference time in it. -/
def referenceDay (et : Int → Date) (config : RebalanceConfig) (cal : TradingCalendar) (asOf : AwareDatetime) :
    Except CalendarCoverageError (TradingSession × AwareDatetime) := do
  let d0 ← cal.nextSession (et asOf.instant)
  let session ← cal.session d0
  return (session, session.openAt.plus (delayOf config))

end References
end AsymmetricCommittee
