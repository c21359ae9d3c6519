import AsymmetricCommittee.Agents.QuantBaseline

/-! The weekly walk-forward coordinator without agents (`evaluation/walkforward.py`). -/

namespace AsymmetricCommittee
namespace Walkforward
variable {K : Type} [Field K] [LinearOrder K] [IsStrictOrderedRing K]

structure WalkForwardInputs (K : Type) where
  rows : List (FeatureRow K)
  trainingFeatures : List (FeatureRow K)
  labels : List Gate.GateLabel
  sectors : Dict Int String
  volatilities : Dict Int K
  entityTokens : Dict Int EntityToken

structure WalkForwardResult (K : Type) [Field K] [LinearOrder K] where
  book : ProposedBook K
  gateDecisions : List (GateDecision K)
  featureRows : List (FeatureRow K)
  configHash : String

/-- A contract that refuses its fields. -/
def checked {α : Type} (x : Except ValidationError α) : Except Sizing.SizingError α := x.mapError .invalid

/-- `run_date`. `deterministicRunId` is the name-based identifier of an instant and a configuration. -/
def runDate (gateFns : Gate.GateFns K) (mathFns : Sizing.MathFns K) (deterministicRunId : AwareDatetime → String → UUID)
    (asOf : AwareDatetime) (inputs : WalkForwardInputs K) (riskConfig : RiskConfig K) (gateK : Nat) (configHash : String) :
    Except Sizing.SizingError (WalkForwardResult K) := do
  let runId := deterministicRunId asOf configHash
  let training := Gate.eligibleTrainingSet inputs.trainingFeatures inputs.labels asOf
  let model := Gate.fitLogistic gateFns training 300 0.08 0.01
  let gate : List (GateDecision K) ← checked (Gate.decideRows gateFns model inputs.rows runId asOf gateK)
  let passed : List SecurityId := (gate.filter (·.passed)).map (·.securityId)
  let candidates := inputs.rows.filter fun row => decide (row.securityId ∈ passed)
  let decisions ← QuantBaseline.decisions gateFns candidates runId asOf inputs.entityTokens
  let book ←
    if decisions.isEmpty then checked (ProposedBook.make runId asOf [])
    else Sizing.sizeBook mathFns decisions inputs.sectors inputs.volatilities riskConfig
  return ⟨book, gate, inputs.rows, configHash⟩

end Walkforward
end AsymmetricCommittee
