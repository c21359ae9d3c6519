import AsymmetricCommittee.Contracts.Data
import AsymmetricCommittee.Contracts.Records

/-! Verdicts (`contracts/models.py`): what a model answers, and the envelope that the system fills in. -/

namespace AsymmetricCommittee

inductive Stance where
  | strongSell
  | sell
  | hold
  | buy
  | strongBuy
  deriving DecidableEq, Repr

inductive DataSufficiency where
  | full
  | partialData
  | insufficient
  deriving DecidableEq, Repr

/-- A citation of one row in the agent's input partition. -/
structure EvidenceRef where
  source : FeedName
  rowId : Label
  note : Text 280
  deriving DecidableEq

section Verdicts
variable (K : Type) [Field K] [LinearOrder K]

/-- `AgentVerdictLLM`. -/
structure AgentVerdictLLM where
  stance : Stance
  pOutperform5 : Probability K
  pOutperform21 : Probability K
  pOutperform63 : Probability K
  keyEvidence : List EvidenceRef
  risks : List (Text 280)
  dataSufficiency : DataSufficiency
  keyEvidence_length : 1 ≤ keyEvidence.length ∧ keyEvidence.length ≤ 5
  risks_length : risks.length ≤ 3
  deriving DecidableEq

/-- `RedTeamVerdictLLM`. -/
structure RedTeamVerdictLLM where
  bearSeverity : BearSeverity
  falsifiableRisk : Text 280
  horizonDays : Horizon
  keyEvidence : List EvidenceRef
  keyEvidence_length : 1 ≤ keyEvidence.length ∧ keyEvidence.length ≤ 5
  deriving DecidableEq

/-- What every verdict carries besides the model's answer. -/
structure Envelope where
  runId : UUID
  entityToken : EntityToken
  asOf : AwareDatetime
  promptVersion : Label
  modelServed : Label
  valid : Bool
  deriving DecidableEq

/-- `AgentVerdict`, of a voting agent. -/
structure AgentVerdict extends AgentVerdictLLM K, Envelope where
  agent : AgentName
  votes : agent ∈ votingAgents
  deriving DecidableEq

/-- `RedTeamVerdict`. -/
structure RedTeamVerdict extends RedTeamVerdictLLM, Envelope
  deriving DecidableEq

/-- `AgentVerdict | RedTeamVerdict`. -/
inductive Verdict where
  | vote (v : AgentVerdict K)
  | red (v : RedTeamVerdict)
  deriving DecidableEq

end Verdicts

namespace Verdict
variable {K : Type} [Field K] [LinearOrder K]

def agent : Verdict K → AgentName
  | .vote v => v.agent
  | .red _ => .redTeam

def envelope : Verdict K → Envelope
  | .vote v => v.toEnvelope
  | .red v => v.toEnvelope

def vote? : Verdict K → Option (AgentVerdict K)
  | .vote v => some v
  | .red _ => none

def red? : Verdict K → Option RedTeamVerdict
  | .vote _ => none
  | .red v => some v

end Verdict
end AsymmetricCommittee
