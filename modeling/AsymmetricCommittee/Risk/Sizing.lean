import AsymmetricCommittee.Config.Loader
import AsymmetricCommittee.Contracts.Records
import AsymmetricCommittee.Lib.Dict

/-! Pure deterministic sizing and portfolio constraints (`risk/sizing.py`), in exact arithmetic. The
    mappings by security are dictionaries; `math.sqrt` and `math.exp` are the parameter `fns`. -/

namespace AsymmetricCommittee
namespace Sizing

/-- `math.sqrt` and `math.exp`. -/
structure MathFns (K : Type) where
  sqrt : K → K
  exp : K → K

/-- Why a sizing raises. -/
inductive SizingError where
  | noDecision
  | noPool (horizon : Horizon)
  | keyError (securityId : Int)
  | noBaseRate
  | invalid (error : ValidationError)
  deriving DecidableEq, Repr

variable {K : Type} [Field K] [LinearOrder K]

/-- `committee.stacker.sigmoid`. -/
def sigmoid (fns : MathFns K) (x : K) : K :=
  if 0 ≤ x then 1 / (1 + fns.exp (-x))
  else
    let e := fns.exp x
    e / (1 + e)

/-- `d[sid]`. -/
def item {ν : Type} (d : Dict Int ν) (sid : Int) : Except SizingError ν :=
  match d.get? sid with
  | some v => .ok v
  | none => .error (.keyError sid)

/-- `volatilities.get(sid, 0.0)`. On an eligible name, whose volatility is positive, it is
    `volatilities[sid]`. -/
def volOf (volatilities : Dict Int K) (sid : Int) : K := (volatilities.get? sid).getD 0

/-- `_portfolio_vol`: annualized diagonal-covariance volatility estimate. -/
def portfolioVol (fns : MathFns K) (weights volatilities : Dict Int K) : Except SizingError K := do
  let squares ← weights.entries.mapM fun e => do
    let vol ← item volatilities e.1
    return (e.2 * vol) ^ 2
  return fns.sqrt squares.sum

/-- The total weight of the names of a sector. -/
def sectorTotal (sectors : Dict Int String) (sector : String) (weights : List (Int × K)) : K :=
  (weights.map fun e => if sectors.get? e.1 = some sector then e.2 else 0).sum

/-- One pass of the loop of `_cap_sectors`: an over-cap sector is scaled pro rata. -/
def capSector (sectors : Dict Int String) (cap : K) (weights : Dict Int K) (sector : String) : Dict Int K :=
  let total := sectorTotal sectors sector weights.entries
  let scale := if total ≠ 0 then min 1 (cap / total) else 1
  weights.map fun sid w => if sectors.get? sid = some sector then w * scale else w

/-- `_cap_sectors`. The scaling of one sector touches no other. -/
def capSectors (weights : Dict Int K) (sectors : Dict Int String) (cap : K) : Except SizingError (Dict Int K) := do
  let names ← weights.keys.mapM (item sectors)
  return (names.dedup.mergeSort fun a b => decide (a ≤ b)).foldl (capSector sectors cap) weights

/-- `config.bear_multiplier[bear.get(sid) or BearSeverity.LOW]`. -/
def sBear (config : RiskConfig K) (bear : Dict Int (Option BearSeverity)) (sid : Int) : K :=
  (config.bearMultiplier (((bear.get? sid).join).getD .low)).val

/-- Pooled logit and dispersion at a horizon, by security. -/
def scoredAt (pooled : Dict Int (PooledForecast K)) (horizon : Horizon) : Except SizingError (Dict Int (K × K)) :=
  if pooled.entries.all fun e => (e.2.pool horizon).isSome then
    .ok (pooled.filterMap fun _ forecast => (forecast.pool horizon).map fun pool => (pool.logit, pool.dispersion.val))
  else .error (.noPool horizon)

/-- Rank mode: the top M by pooled logit, inverse-vol, times `S_bear`. -/
def rankRaw (eligible : Dict Int (K × K)) (volatilities : Dict Int K) (bear : Dict Int (Option BearSeverity))
    (config : RiskConfig K) : Dict Int K :=
  let top := (eligible.sort fun a b => decide (b.2.1 < a.2.1 ∨ (a.2.1 = b.2.1 ∧ a.1 ≤ b.1))).take config.rankTopM
  let inv := top.map fun sid _ => 1 / volOf volatilities sid
  let total := (inv.entries.map (·.2)).sum
  inv.map fun sid i => i / total * sBear config bear sid

/-- Calibrated mode: `edge = p_cal - b >= hurdle`, `raw_w = k * edge / sigma`. -/
def calibratedRaw (fns : MathFns K) (eligible : Dict Int (K × K)) (volatilities : Dict Int K)
    (bear : Dict Int (Option BearSeverity)) (fit : CalibrationFit K) (baseRate : K) (config : RiskConfig K) :
    Dict Int K :=
  eligible.filterMap fun sid v =>
    let edge := sigmoid fns (fit.alpha + fit.beta * v.1) - baseRate
    if edge ≥ config.edgeHurdle.val then
      let shrink := max 0 (1 - config.committeeDispersionLambda.val * v.2)
      some (config.committeeK.val * edge / volOf volatilities sid * shrink * sBear config bear sid)
    else none

/-- The raw weights of the mode in force. -/
def rawWeights (fns : MathFns K) (eligible : Dict Int (K × K)) (volatilities : Dict Int K)
    (bear : Dict Int (Option BearSeverity)) (fit : CalibrationFit K) (config : RiskConfig K) :
    Except SizingError (Dict Int K) :=
  if fit.active = false then .ok (rankRaw eligible volatilities bear config)
  else
    match fit.baseRate with
    | none => .error .noBaseRate
    | some baseRate => .ok (calibratedRaw fns eligible volatilities bear fit baseRate.val config)

/-- The floor: a weight below the minimum position is dropped. -/
def floorWeight (minPosition w : K) : K := if minPosition ≤ w then w else 0

/-- The scale that brings a book to the volatility target and the gross limit. -/
def limitScale (vol gross volTarget : K) : K :=
  let scale := if vol ≠ 0 then min 1 (volTarget / vol) else 1
  if gross ≠ 0 then min scale (1 / gross) else scale

/-- The constraints, in order: position cap, sector cap, floor, volatility target and gross, floor. -/
def constrain (fns : MathFns K) (raw : Dict Int K) (sectors : Dict Int String) (volatilities : Dict Int K)
    (config : RiskConfig K) : Except SizingError (Dict Int K) := do
  let weights := raw.map fun _ w => min (max w 0) config.maxPosition.val
  let weights ← capSectors weights sectors config.maxSector.val
  let weights := weights.map fun _ w => floorWeight config.minPosition.val w
  let vol ← portfolioVol fns weights volatilities
  let gross := (weights.entries.map (·.2)).sum
  let scale := limitScale vol gross config.volTargetAnnual.val
  return weights.map fun _ w => floorWeight config.minPosition.val (w * scale)

/-- The position of a held name. -/
def positionOf (fns : MathFns K) (pooled : Dict Int (PooledForecast K)) (scored : Dict Int (K × K))
    (sectors : Dict Int String) (fit : CalibrationFit K) (sid : Int) (w : K) : Except SizingError (ProposedPosition K) := do
  let forecast ← item pooled sid
  let sector ← item sectors sid
  let score ← item scored sid
  match ProposedPosition.make sid forecast.entityToken sector (sigmoid fns (fit.alpha + fit.beta * score.1)) w with
  | .ok position => return position
  | .error e => throw (.invalid e)

/-- `size_committee_book`. -/
def sizeCommitteeBook (fns : MathFns K) (runId : UUID) (asOf : AwareDatetime) (pooled : Dict Int (PooledForecast K))
    (bear : Dict Int (Option BearSeverity)) (sectors : Dict Int String) (volatilities : Dict Int K)
    (fit : CalibrationFit K) (config : RiskConfig K) : Except SizingError (ProposedBook K) := do
  let scored ← scoredAt pooled fit.horizon
  let eligible := scored.filterMap fun sid v => if volOf volatilities sid > 0 then some v else none
  let raw ← rawWeights fns eligible volatilities bear fit config
  let weights ← constrain fns raw sectors volatilities config
  let held := (weights.sort fun a b => decide (a.1 ≤ b.1)).entries.filter fun e => 0 < e.2
  let positions ← held.mapM fun e => positionOf fns pooled scored sectors fit e.1 e.2
  match ProposedBook.make runId asOf positions with
  | .ok book => return book
  | .error e => throw (.invalid e)

/-! ### The quant baseline -/

/-- The weight of one decision, before the sector caps. -/
def decisionWeight (volatilities : Dict Int K) (config : RiskConfig K) (decision : CommitteeDecision K) : K :=
  let sigma := volOf volatilities decision.securityId.val
  let edge := decision.pooledP.val - 0.5
  if decision.pooledP.val < config.entryThreshold.val ∨ sigma ≤ 0 ∨ edge ≤ 0 then 0
  else
    let bear := (config.bearMultiplier (decision.bearSeverity.getD .low)).val
    let weight := config.k.val * edge / sigma
    let weight := weight * (max 0 (1 - config.dispersionLambda.val * decision.dispersion.val) * bear)
    let weight := min weight config.maxPosition.val
    if weight < config.minPosition.val then 0 else weight

/-- `d[key(x)] = value(x)` for each decision in turn: a later decision on a name replaces an earlier one. -/
def byName {ν : Type} (value : CommitteeDecision K → ν) (decisions : List (CommitteeDecision K)) : Dict Int ν :=
  decisions.foldl (fun d decision => d.set decision.securityId.val (value decision)) Dict.empty

/-- The position of a held name of the baseline. -/
def baselinePosition (byId : Dict Int (CommitteeDecision K)) (sectors : Dict Int String) (sid : Int) (w : K) :
    Except SizingError (ProposedPosition K) := do
  let decision ← item byId sid
  let sector ← item sectors sid
  match ProposedPosition.make sid decision.entityToken sector decision.pooledP.val w with
  | .ok position => return position
  | .error e => throw (.invalid e)

/-- `size_book`. -/
def sizeBook (fns : MathFns K) (decisions : List (CommitteeDecision K)) (sectors : Dict Int String)
    (volatilities : Dict Int K) (config : RiskConfig K) : Except SizingError (ProposedBook K) :=
  match decisions with
  | [] => throw .noDecision
  | first :: _ => do
    let weights := byName (decisionWeight volatilities config) decisions
    let weights ← capSectors weights sectors config.maxSector.val
    -- every name of `weights`, also one of weight zero
    let vol ← portfolioVol fns weights volatilities
    let gross := (weights.entries.map (·.2)).sum
    let scale := limitScale vol gross config.volTargetAnnual.val
    let weights := weights.map fun _ w => floorWeight config.minPosition.val (w * scale)
    let byId := byName id decisions
    let held := (weights.sort fun a b => decide (a.1 ≤ b.1)).entries.filter fun e => 0 < e.2
    let positions ← held.mapM fun e => baselinePosition byId sectors e.1 e.2
    match ProposedBook.make first.runId first.asOf positions with
    | .ok book => return book
    | .error e => throw (.invalid e)

end Sizing
end AsymmetricCommittee
