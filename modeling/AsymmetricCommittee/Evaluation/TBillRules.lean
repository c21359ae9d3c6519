import AsymmetricCommittee.Evaluation.CalendarRules

/-! DGS3MO accrual rate selection (`evaluation/tbill_rules.py`): only a vintage dated before the accrual date is usable,
    and the observation is the latest one dated at or before the previous session. -/

namespace AsymmetricCommittee
namespace TBillRules

inductive TBillUnresolved where
  | noVintageCoverage
  | beforeEarliestVintage
  | noUsableRate
  | calendarUncovered
  deriving DecidableEq, Repr

structure TBillRate (K : Type) where
  observationDate : Date
  vintageDate : Date
  yieldPct : K
  deriving DecidableEq, Repr

variable {K : Type}

/-- The latest usable vintage of each observation date; of equal vintages the first stands. -/
def latestStep (accrualDate previous : Date) (latest : Dict Date (TBillObservation K)) (r : TBillObservation K) :
    Dict Date (TBillObservation K) :=
  if accrualDate ≤ r.vintageDate ∨ previous < r.observationDate then latest
  else
    match latest.get? r.observationDate with
    | none => latest.set r.observationDate r
    | some known => if known.vintageDate < r.vintageDate then latest.set r.observationDate r else latest

/-- The loop of `select_rate`. -/
def latestVintages (accrualDate previous : Date) (rows : List (TBillObservation K)) : Dict Date (TBillObservation K) :=
  rows.foldl (latestStep accrualDate previous) Dict.empty

/-- `select_rate`: the rate, or why there is none. -/
def selectRate (rows : List (TBillObservation K)) (coverage : Option TBillVintageCoverage) (accrualDate : Date)
    (calendar : TradingCalendar) : Except TBillUnresolved (TBillRate K) :=
  match coverage with
  | none => .error .noVintageCoverage
  | some coverage =>
    if accrualDate ≤ coverage.earliestVintage then .error .beforeEarliestVintage
    else
      match calendar.previousSession accrualDate with
      | .error _ => .error .calendarUncovered
      | .ok previous =>
        let latest := latestVintages accrualDate previous rows
        match latest.keys.max? with
        | none => .error .noUsableRate
        | some day =>
          match latest.get? day with
          | none => .error .noUsableRate  -- the day is a key
          | some chosen => .ok ⟨chosen.observationDate, chosen.vintageDate, chosen.yieldPct⟩

end TBillRules
end AsymmetricCommittee
