import AsymmetricCommittee.Contracts.Models
import AsymmetricCommittee.Lib.Dict

/-! The configuration (`config/loader.py`). Each part carries its field constraints and its validator, so that its
    values are the configurations the validator admits. -/

namespace AsymmetricCommittee

variable (K : Type*) [Field K] [LinearOrder K]

/-- `risk.yaml`. -/
structure RiskConfig where
  longOnly : Bool
  maxPosition : Probability K
  maxSector : Probability K
  volTargetAnnual : Positive K
  minPosition : Probability K
  entryThreshold : Probability K
  k : Positive K
  dispersionLambda : NonNegative K
  rankTopM : Nat
  edgeHurdle : Probability K
  committeeK : Positive K
  committeeDispersionLambda : NonNegative K
  bearMultiplier : BearSeverity → Probability K
  cioVetoBudget : Probability K
  killSwitchDailyLoss : Probability K
  modeledCostBps : NonNegative K
  rankTopM_pos : 1 ≤ rankTopM
  longOnly_true : longOnly = true
  minPosition_pos : 0 < minPosition.val
  minPosition_lt : minPosition.val < maxPosition.val
  maxPosition_le : maxPosition.val ≤ maxPositionCap K
  maxSector_ge : maxPosition.val ≤ maxSector.val
  entryThreshold_range : 0.5 < entryThreshold.val ∧ entryThreshold.val < 1

/-- The committee's part of `pipeline.yaml`; `T_w` is `minPeriods`. -/
structure CommitteeConfig where
  logitClip : K × K
  weightFloor : NonNegative K
  minPeriods : Nat
  tau : Positive K
  overlapWeights : Horizon → Positive K
  clip_range : 0 < logitClip.1 ∧ logitClip.1 < 0.5 ∧ 0.5 < logitClip.2 ∧ logitClip.2 < 1
  floor_le : weightFloor.val * votingAgents.length ≤ 1

/-! ### `models.yaml` -/

/-- When the rebalance trades: a delay after the open, in minutes. -/
structure RebalanceConfig where
  minutesAfterOpen : Nat
  within_session : minutesAfterOpen ≤ 390
  deriving DecidableEq

/-- A model that may answer, with what its tokens cost. -/
structure ServedModel where
  slug : String
  inputPriceUsdPerMtok : NonNegative K
  outputPriceUsdPerMtok : NonNegative K
  slug_nonempty : 1 ≤ slug.length
  deriving DecidableEq

/-- What a usage block gives that is usable: token counts and a finite cost of at least zero. -/
structure Usage where
  promptTokens : Option Nat
  completionTokens : Option Nat
  cost : Option (NonNegative K)

structure ModelEntry where
  primary : ServedModel K
  fallbacks : List (ServedModel K)
  unique_slugs : ((primary :: fallbacks).map (·.slug)).Nodup

variable {K}

def ModelEntry.models (self : ModelEntry K) : List (ServedModel K) := self.primary :: self.fallbacks

def ModelEntry.allSlugs (self : ModelEntry K) : List String := self.models.map (·.slug)

variable (K)

/-- The models of each tier. Every tier is there, one slug is one model, and the probe tier uses production models. -/
structure ModelsConfig where
  tiers : Dict ModelTier (ModelEntry K)
  complete : ∀ tier, (tiers.get? tier).isSome = true
  one_model : ∀ e ∈ tiers.values, ∀ e' ∈ tiers.values, ∀ m ∈ e.models, ∀ m' ∈ e'.models, m.slug = m'.slug → m = m'
  probe_production : ∀ probe ∈ tiers.get? ModelTier.probe, ∀ slug ∈ probe.allSlugs,
    ∃ tier, (tier = .fast ∨ tier = .strong) ∧ ∃ e ∈ tiers.get? tier, slug ∈ e.allSlugs

variable {K}

theorem ServedModel.label (self : ServedModel K) (h : self.slug.length ≤ 128) :
    1 ≤ self.slug.length ∧ self.slug.length ≤ 128 := ⟨self.slug_nonempty, h⟩

/-- `tokens x configured prices`. -/
def ServedModel.localCostUsd (self : ServedModel K) (promptTokens completionTokens : Nat) : K :=
  (promptTokens * self.inputPriceUsdPerMtok.val + completionTokens * self.outputPriceUsdPerMtok.val) / 1000000

/-- `call_cost`: the local cost if both counts are there, else the provider's; none is `UsageUnavailableError`. -/
def ServedModel.callCost (self : ServedModel K) (usage : Option (Usage K)) : Option K :=
  match usage with
  | none => none
  | some usage =>
    match usage.promptTokens, usage.completionTokens with
    | some prompt, some completion => some (self.localCostUsd prompt completion)
    | _, _ => usage.cost.map (·.val)

/-- `models.tiers[tier]`. -/
def ModelsConfig.tier (self : ModelsConfig K) (tier : ModelTier) : ModelEntry K :=
  (self.tiers.get? tier).get (self.complete tier)

/-- The first model of the slug; none is an unknown model. -/
def ModelsConfig.modelForResponse (self : ModelsConfig K) (responseModel : String) : Option (ServedModel K) :=
  (self.tiers.values.flatMap (·.models)).find? fun model => model.slug = responseModel

end AsymmetricCommittee
