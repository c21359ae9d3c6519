/-! The shared categorical types (`contracts/enums.py`). -/

namespace AsymmetricCommittee

inductive AgentName where
  | value
  | qualityCatalyst
  | insider
  | technical
  | macroNarrative
  | redTeam
  | cio
  | quantBaseline
  deriving DecidableEq, Repr

def AgentName.enumValue : AgentName → String
  | .value => "value"
  | .qualityCatalyst => "quality_catalyst"
  | .insider => "insider"
  | .technical => "technical"
  | .macroNarrative => "macro_narrative"
  | .redTeam => "red_team"
  | .cio => "cio"
  | .quantBaseline => "quant_baseline"

/-- `VOTING_AGENTS`: the agents whose forecast enters the committee pool. -/
def votingAgents : List AgentName := [.value, .qualityCatalyst, .insider, .technical, .macroNarrative]

inductive RunMode where
  | live
  | backtest
  | ablation
  deriving DecidableEq, Repr

def RunMode.value : RunMode → String
  | .live => "live"
  | .backtest => "backtest"
  | .ablation => "ablation"

/-- The run state machine. -/
inductive RunStatus where
  | pending
  | ingestOk
  | featuresOk
  | gated
  | agentsOk
  | committed
  | anchored
  | executed
  | scored
  | failed
  | partialRun
  deriving DecidableEq, Repr

/-- `_RUN_PATH`. -/
def runPath : List RunStatus :=
  [.pending, .ingestOk, .featuresOk, .gated, .agentsOk, .committed, .anchored, .executed, .scored]

/-- `RUN_TRANSITIONS`: each non-terminal state may advance one step, or end in FAILED or PARTIAL; a
    backtest may be scored from ANCHORED. -/
def runTransitions : RunStatus → List RunStatus
  | .pending => [.ingestOk, .failed, .partialRun]
  | .ingestOk => [.featuresOk, .failed, .partialRun]
  | .featuresOk => [.gated, .failed, .partialRun]
  | .gated => [.agentsOk, .failed, .partialRun]
  | .agentsOk => [.committed, .failed, .partialRun]
  | .committed => [.anchored, .failed, .partialRun]
  | .anchored => [.executed, .scored, .failed, .partialRun]
  | .executed => [.scored, .failed, .partialRun]
  | .scored => []
  | .failed => []
  | .partialRun => []

inductive BearSeverity where
  | low
  | med
  | high
  deriving DecidableEq, Repr

def BearSeverity.value : BearSeverity → String
  | .low => "low"
  | .med => "med"
  | .high => "high"

inductive CioAction where
  | approve
  | veto
  | flagForReview
  deriving DecidableEq, Repr

def CioAction.value : CioAction → String
  | .approve => "approve"
  | .veto => "veto"
  | .flagForReview => "flag_for_review"

/-- The tiers of models. -/
inductive ModelTier where
  | fast
  | strong
  | probe
  deriving DecidableEq, Repr

inductive SizingMode where
  | rank
  | calibrated
  deriving DecidableEq, Repr

def SizingMode.value : SizingMode → String
  | .rank => "rank"
  | .calibrated => "calibrated"

/-- Scoring horizon in trading days. -/
inductive Horizon where
  | d5
  | d21
  | d63
  deriving DecidableEq, Repr

/-- The integer value of a horizon. -/
def Horizon.value : Horizon → Int
  | .d5 => 5
  | .d21 => 21
  | .d63 => 63

/-- Consolidated tape a trade printed on: A and B follow the CTS spec, C the UTP spec. -/
inductive Tape where
  | a
  | b
  | c
  deriving DecidableEq, Repr

inductive ReferenceSource where
  | iexMid
  | sipLast
  deriving DecidableEq, Repr

inductive RefStatus where
  | resolved
  | unresolved
  deriving DecidableEq, Repr

/-- Why a reference is unresolved. -/
inductive RefReason where
  | noReferencePrice
  | noEligibleTrade
  | unknownCondition
  | providerMappingUnvalidated
  | sipEntitlement
  | incompleteTrades
  | calendarUncovered
  | ambiguousOrder
  deriving DecidableEq, Repr

/-- Whether one trade may set the consolidated last sale price. -/
inductive ConditionEligibility where
  | eligible
  | ineligible
  | conditional
  | unknown
  deriving DecidableEq, Repr

end AsymmetricCommittee
