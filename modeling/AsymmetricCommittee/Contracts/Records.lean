import AsymmetricCommittee.Contracts.MarketData

/-! Run records and evidence (`contracts/models.py`, `contracts/market_data.py`): what one step of a run
    produces and what the store keeps of it. -/

namespace AsymmetricCommittee

/-- What halted trading. -/
inductive KillTrigger where
  | dailyLoss
  | staleFeed
  | manual
  deriving DecidableEq, Repr

def KillTrigger.value : KillTrigger → String
  | .dailyLoss => "daily_loss"
  | .staleFeed => "stale_feed"
  | .manual => "manual"

/-- `HALT_REASON_PREFIX`. -/
def haltReasonPrefix : String := "kill_switch:"

/-- `halt_reason`: the status reason of a run that a halt moved to PARTIAL. -/
def haltReason (trigger : KillTrigger) : String := haltReasonPrefix ++ trigger.value

/-- `s.startswith(HALT_REASON_PREFIX)`. -/
def isHaltReason (s : String) : Bool := haltReasonPrefix.toList.isPrefixOf s.toList

theorem isHaltReason_haltReason (trigger : KillTrigger) : isHaltReason (haltReason trigger) = true := by
  rw [isHaltReason, haltReason, String.toList_append, List.isPrefixOf_iff_prefix]
  exact List.prefix_append _ _

/-- The characters that `str.strip` removes. -/
def isPySpace (c : Char) : Bool :=
  let n := c.toNat
  (9 ≤ n && n ≤ 13) || (28 ≤ n && n ≤ 32) || n = 133 || n = 160 || n = 5760 || (8192 ≤ n && n ≤ 8202) ||
    n = 8232 || n = 8233 || n = 8239 || n = 8287 || n = 12288

/-- `not s.strip()`. -/
def isBlank (s : String) : Bool := s.toList.all isPySpace

/-- `LongText`: 1 to 4000 characters. -/
abbrev LongText := { s : String // 1 ≤ s.length ∧ s.length ≤ 4000 }

section Records
variable (K : Type) [Field K] [LinearOrder K]

/-! ### The run row -/

/-- The columns of a run. -/
structure RunRow where
  runId : UUID
  mode : RunMode
  asOf : AwareDatetime
  configHash : Sha256Hex
  status : RunStatus
  startedAt : AwareDatetime
  endedAt : Option AwareDatetime
  statusReason : Option String
  totalCostUsd : NonNegative K

/-- What `RunRecord` checks of its fields. -/
def RunRow.Valid {K : Type} [Field K] [LinearOrder K] (r : RunRow K) : Prop :=
  (∀ reason ∈ r.statusReason, reason.length ≤ 1000) ∧ ∀ ended ∈ r.endedAt, r.startedAt.instant ≤ ended.instant

instance {K : Type} [Field K] [LinearOrder K] (r : RunRow K) : Decidable r.Valid :=
  inferInstanceAs (Decidable (_ ∧ _))

structure RunRecord extends RunRow K where
  valid : toRunRow.Valid

/-! ### Decisions and the final book -/

/-- The gate's decision on one security; `components` are the coefficients behind the score. -/
structure GateDecision where
  runId : UUID
  securityId : SecurityId
  asOf : AwareDatetime
  featureSetVersion : Label
  gateModelVersion : Label
  score : Probability K
  passed : Bool
  components : List (Label × K)

structure CommitteeDecision where
  runId : UUID
  securityId : SecurityId
  entityToken : EntityToken
  asOf : AwareDatetime
  horizonDays : Horizon
  pooledP : Probability K
  dispersion : NonNegative K
  agentWeights : List (AgentWeight K)
  bearSeverity : Option BearSeverity
  targetWeight : Weight K
  weights_nonempty : agentWeights ≠ []
  weights_unique : (agentWeights.map (·.agent)).Nodup
  weights_voting : agentWeights.map (·.agent) = [.quantBaseline] ∨ ∀ w ∈ agentWeights, w.agent ∈ votingAgents

/-- A committee decision with the pooling detail and CIO outcome the table also keeps. -/
structure CommitteeDecisionRecord where
  decision : CommitteeDecision K
  pooledLogit : Option K
  sizingMode : Option SizingMode
  cioAction : Option CioAction
  rationale : Option String
  rationale_short : ∀ text ∈ rationale, text.length ≤ 4000

/-- The CIO's decision on one proposed name. -/
structure CioNameDecision where
  entityToken : EntityToken
  action : CioAction
  reason : String
  reason_short : reason.length ≤ 1000
  reason_given : action ≠ .approve → isBlank reason = false

structure CioDecision where
  decisions : List CioNameDecision
  rationale : LongText
  runId : UUID
  asOf : AwareDatetime
  promptVersion : Label
  modelServed : Label
  tokens_unique : (decisions.map (·.entityToken)).Nodup

/-- The final book after the CIO. Cash is the residual, stored, never chosen. -/
structure PortfolioSnapshot where
  runId : UUID
  asOf : AwareDatetime
  book : ProposedBook K
  cashWeight : Probability K
  cio : Option CioDecision
  book_run : book.runId = runId
  book_asOf : book.asOf.instant = asOf.instant
  cash_residual : |cashWeight.val - book.cashWeight| ≤ 1e-9

structure DecisionCommitment where
  runId : UUID
  sha256 : Sha256Hex
  committedAt : AwareDatetime

structure CommitmentAnchor where
  runId : UUID
  sha256 : Sha256Hex
  otsProof : Option (List UInt8)
  gitCommit : Option Label
  anchoredAt : AwareDatetime
  verifiedAt : Option AwareDatetime

/-! ### Halts -/

structure KillSwitchEvent where
  runId : UUID
  triggeredAt : AwareDatetime
  trigger : KillTrigger
  dailyLoss : Option K
  peakDrawdown : Option K
  cancelledOrderIds : List Label
  flattened : Bool
  only_manual_flattens : flattened = true → trigger = .manual
  deriving DecidableEq

inductive HaltRequestStatus where
  | symbolsPending
  deriving DecidableEq, Repr

/-- Written in the halt transaction: the halt's references are still to be resolved. -/
structure HaltReferenceRequest where
  runId : UUID
  trigger : KillTrigger
  tau : AwareDatetime
  status : HaltRequestStatus
  requestedAt : AwareDatetime
  sourceVersion : Version

/-! ### Orders -/

inductive OrderSide where
  | buy
  | sell
  deriving DecidableEq, Repr

/-- Order type used by the limit, cancel, market sequence. -/
inductive OrderKind where
  | limit
  | market
  deriving DecidableEq, Repr

/-- Broker order state, collapsed to what execution decisions need. -/
inductive BrokerOrderStatus where
  | open
  | partiallyFilled
  | pendingCancel
  | filled
  | canceled
  | expired
  | doneForDay
  | rejected
  deriving DecidableEq, Repr

/-- `TERMINAL_ORDER_STATUSES`. -/
def BrokerOrderStatus.terminal : BrokerOrderStatus → Bool
  | .filled | .canceled | .expired | .doneForDay | .rejected => true
  | .open | .partiallyFilled | .pendingCancel => false

/-- The broker's authoritative view of one order. -/
structure BrokerOrder where
  brokerOrderId : Label
  clientOrderId : Label
  symbol : Label
  side : OrderSide
  kind : OrderKind
  qty : Positive K
  filledQty : NonNegative K
  limitPrice : Option (Positive K)
  filledAvgPrice : Option (Positive K)
  status : BrokerOrderStatus
  submittedAt : AwareDatetime
  filledAt : Option AwareDatetime

/-- Persisted execution evidence for one order. -/
structure ExecutionRecord where
  runId : UUID
  securityId : SecurityId
  clientOrderId : Label
  brokerOrderId : Label
  kind : OrderKind
  side : OrderSide
  qty : Positive K
  filledQty : NonNegative K
  limitPrice : Option (Positive K)
  decisionPrice : Positive K
  referencePrice : Positive K
  referenceSource : ReferenceSource
  fillPrice : Option (Positive K)
  slippageBps : Option K
  status : BrokerOrderStatus
  submittedAt : AwareDatetime
  filledAt : Option AwareDatetime

/-! ### One step of a run -/

/-- One stored agent or red-team verdict plus its call accounting; `V` is what the verdict says. -/
structure VerdictRecord (V : Type) where
  runId : UUID
  securityId : SecurityId
  agent : AgentName
  verdict : V
  tokensIn : Option Nat
  tokensOut : Option Nat
  costUsd : NonNegative K
  latencyMs : Option Nat

/-- A failed or aborted task. -/
structure DlqRecord where
  runId : UUID
  asOf : AwareDatetime
  agent : Label
  errorType : Label
  payload : List (String × String)

/-- Everything one `as_of` step produced; the sink writes it in a single transaction. -/
structure StepArtifacts (V : Type) where
  run : RunRecord K
  verdicts : List (VerdictRecord K V)
  decisions : List (CommitteeDecisionRecord K)
  portfolio : Option (PortfolioSnapshot K)
  commitment : Option DecisionCommitment
  dlq : List DlqRecord
  killSwitch : List (KillSwitchEvent K)
  verdicts_run : ∀ v ∈ verdicts, v.runId = run.runId
  decisions_run : ∀ d ∈ decisions, d.decision.runId = run.runId
  portfolio_run : ∀ p ∈ portfolio, p.runId = run.runId
  commitment_run : ∀ c ∈ commitment, c.runId = run.runId
  dlq_run : ∀ d ∈ dlq, d.runId = run.runId
  killSwitch_run : ∀ e ∈ killSwitch, e.runId = run.runId

end Records
end AsymmetricCommittee
