import AsymmetricCommittee.Gate.Model
import Mathlib.Tactic.NormNum

/-! Deterministic cross-sectional value, momentum and quality control (`agents/quant_baseline.py`). -/

namespace AsymmetricCommittee
namespace QuantBaseline

/-- `VALUE`. -/
def valueFactors : List String := ["ev_sales_sector_percentile", "ev_ebit_sector_percentile", "fcf_yield_sector_percentile"]

/-- `QUALITY`. -/
def qualityFactors : List String :=
  ["gross_margin_trend_sector_percentile",
    "revenue_growth_yoy_sector_percentile",
    "revenue_growth_3y_cagr_sector_percentile",
    "net_debt_ebitda_sector_percentile",
    "share_count_change_sector_percentile",
    "accruals_ratio_sector_percentile"]

def momentumFactor : String := "momentum_12_1"

/-- `LOW_IS_GOOD`. -/
def lowIsGood : List String :=
  ["ev_sales_sector_percentile",
    "ev_ebit_sector_percentile",
    "net_debt_ebitda_sector_percentile",
    "share_count_change_sector_percentile",
    "accruals_ratio_sector_percentile"]

variable {K : Type} [Field K] [LinearOrder K]

/-- The number each security has for a feature; a later row replaces an earlier one. -/
def observed (fl : PyFloat K) (rows : List (FeatureRow K)) (name : String) : Dict Int K :=
  rows.foldl (fun d r =>
    match Gate.number fl (r.values.get? name) with
    | some x => d.set r.securityId.val x
    | none => d) Dict.empty

/-- `_zscores`, at one security of the rows. -/
def zscore (fl : PyFloat K) (rows : List (FeatureRow K)) (name : String) (sid : Int) : K :=
  let values := (observed fl rows name).values
  if values = [] then 0
  else
    let mean := Gate.fmean values
    let scale := if 1 < values.length then fl.pstdev values else 1
    let sign := if name ∈ lowIsGood then -1 else 1
    sign * (((observed fl rows name).get? sid).getD mean - mean) / (if scale = 0 then 1 else scale)

/-- The mean of the value, momentum and quality scores of one security. -/
def composite (fl : PyFloat K) (rows : List (FeatureRow K)) (sid : Int) : K :=
  let value := Gate.fmean (valueFactors.map fun name => zscore fl rows name sid)
  let momentum := zscore fl rows momentumFactor sid
  let quality := Gate.fmean (qualityFactors.map fun name => zscore fl rows name sid)
  Gate.fmean [value, momentum, quality]

variable [IsStrictOrderedRing K]

local instance twenty_atLeastTwo : Nat.AtLeastTwo 20 := inferInstance

/-- The decision on one row. -/
def decisionOf (fns : Gate.GateFns K) (rows : List (FeatureRow K)) (runId : UUID) (asOf : AwareDatetime)
    (entityTokens : Dict Int EntityToken) (row : FeatureRow K) : Except Sizing.SizingError (CommitteeDecision K) := do
  let probability := 1 / (1 + fns.exp (-(max (-20) (min 20 (composite fns.float rows row.securityId.val)))))
  let token ← Sizing.item entityTokens row.securityId.val
  if h : 0 ≤ probability ∧ probability ≤ 1 then
    return {
      runId := runId
      securityId := row.securityId
      entityToken := token
      asOf := asOf
      horizonDays := .d21
      pooledP := ⟨probability, h⟩
      dispersion := ⟨0, nonNegative_zero K⟩
      agentWeights := [⟨.quantBaseline, ⟨1, zero_le_one⟩⟩]
      bearSeverity := none
      targetWeight := ⟨0, le_rfl, by norm_num [maxPositionCap]⟩
      weights_nonempty := List.cons_ne_nil _ _
      weights_unique := List.nodup_singleton _
      weights_voting := .inl rfl }
  else throw (.invalid .probability)

/-- `decisions`. -/
def decisions (fns : Gate.GateFns K) (rows : List (FeatureRow K)) (runId : UUID) (asOf : AwareDatetime)
    (entityTokens : Dict Int EntityToken) : Except Sizing.SizingError (List (CommitteeDecision K)) :=
  rows.mapM (decisionOf fns rows runId asOf entityTokens)

end QuantBaseline
end AsymmetricCommittee
