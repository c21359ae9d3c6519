import AsymmetricCommittee.Agents.Runner
import AsymmetricCommittee.Committee.Pooling
import AsymmetricCommittee.Contracts.Commitment
import AsymmetricCommittee.Orchestration.Sink

/-! The orchestrator of one step (`orchestration/pipeline.py`): voters, pool, red team on the top names, sizing, CIO,
    commitment, flush. What the agents, the CIO and the clock answer is given with an attempt. -/

namespace AsymmetricCommittee
namespace Pipeline
open Partitions (EntityData Partitioner)
open Runner (TaskKey CallTelemetry Move)

/-- `RED_TEAM_TOP_N`: the red team reviews the strongest candidates only. -/
def redTeamTopN : Nat := 15

def volFeature : String := "realized_vol_20d"

/-- Why a step raises. A schedule that the runner cannot follow is no execution. -/
inductive PipelineError where
  | schedule
  | mismatch
  | runner (e : Runner.RunnerError)
  | pooling (e : Pooling.PoolingError)
  | sizing (e : Sizing.SizingError)
  | commitment (e : CommitmentError)
  | keyError
  | noTelemetry
  | cio
  | invalid
  | store (e : StoreError)

section Types
variable (K : Type) [Field K] [LinearOrder K]

structure PipelineConfig where
  mode : RunMode
  configHash : Sha256Hex
  committee : CommitteeConfig K
  risk : RiskConfig K
  horizons : List Horizon
  primary : Horizon
  concurrency : Nat

/-- What a loader hands to one step; `fitted` is what the stacker fits to the observations of a horizon, if there are
    any. Every security comes once, under a token of its own. -/
structure StepInputs where
  entities : List (EntityData K)
  partitioner : Partitioner K
  baseRates : Horizon → Option K
  fitted : Horizon → Option (CalibrationFit K)
  independentPeriods : Horizon → Nat
  history : Option (Pooling.History K)
  ids_unique : (entities.map (·.securityId)).Nodup
  tokens_unique : (entities.map (·.entityToken)).Nodup

/-- `CioResult`. -/
structure CioResult where
  book : ProposedBook K
  decision : Option CioDecision
  alert : Bool

/-- How `run_cio` ends. -/
inductive CioReply where
  | result (r : CioResult K)
  | aborted (name : String)
  | raised

/-- What an attempt meets: the schedules of its two batches, the CIO, the clock at its begin and its end, what was
    spent and dead-lettered, and the text of an exception. -/
structure Surroundings where
  inputs : StepInputs K
  first : List (Move K)
  second : List (Move K)
  cio : ProposedBook K → CioReply K
  started : AwareDatetime
  now : AwareDatetime
  spentUsd : NonNegative K
  deadLetters : List DlqRecord
  failure : PipelineError → String

/-- `_Attempt`: the mutable state of one execution of a run. -/
structure Attempt where
  runId : UUID
  asOf : AwareDatetime
  started : AwareDatetime
  voters : List (AgentVerdict K)
  reds : List RedTeamVerdict
  stored : List TaskKey
  telemetry : List (TaskKey × CallTelemetry K)

/-- Steps of an attempt; what was collected survives an exception. -/
abbrev Steps (α : Type) : Type := ExceptT PipelineError (StateM (Attempt K)) α

end Types

variable {K : Type} [Field K] [LinearOrder K]

/-! ### The verdicts of an attempt -/

/-- `collect`. -/
def Attempt.collect (a : Attempt K) : Verdict K → Attempt K
  | .vote v => { a with voters := a.voters ++ [v] }
  | .red v => { a with reds := a.reds ++ [v] }

/-- `_verdict_key`. -/
def taskOf (runId : UUID) (v : Verdict K) (securityId : SecurityId) : TaskKey := ⟨runId, v.agent, securityId⟩

/-- The security of a token. -/
def securityOf (entities : List (EntityData K)) (token : EntityToken) : Option SecurityId :=
  (entities.find? fun e => e.entityToken = token).map (·.securityId)

/-- One stored verdict of `_seed_from_store`. -/
def seedOne (inputs : StepInputs K) (a : Attempt K) (r : VerdictRecord K (Verdict K)) : Except PipelineError (Attempt K) :=
  if securityOf inputs.entities r.verdict.envelope.entityToken ≠ some r.securityId then .error .mismatch
  else
    let a := a.collect r.verdict
    .ok { a with stored := a.stored ++ [taskOf a.runId r.verdict r.securityId] }

/-- `load_verdicts`: the rows of a run, by agent. -/
def loadVerdicts (db : RunTables K (Verdict K)) (runId : UUID) : List (VerdictRecord K (Verdict K)) :=
  (db.agentVerdicts.filter fun r => r.runId = runId).insertionSort fun a b => a.agent.enumValue ≤ b.agent.enumValue

/-- `_halted`. -/
def halted (run : RunRow K) : Bool := run.status = .partialRun && run.statusReason.any isHaltReason

/-- What `run_step` begins with: a new run, or a stored one with its completed work; none is a run that is returned as
    it is. -/
def begin_ (cfg : PipelineConfig K) (s : Surroundings K) (db : RunTables K (Verdict K)) (runId : UUID)
    (asOf : AwareDatetime) : Except PipelineError (Option (Attempt K)) :=
  match db.run? runId with
  | none => .ok (some ⟨runId, asOf, s.started, [], [], [], []⟩)
  | some prior =>
    if prior.mode ≠ cfg.mode ∨ prior.asOf.instant ≠ asOf.instant ∨ prior.configHash ≠ cfg.configHash then .error .mismatch
    else if halted prior ∨ prior.status ∈ Store.advanced then .ok none
    else ((loadVerdicts db runId).foldlM (seedOne s.inputs) ⟨runId, asOf, prior.startedAt, [], [], [], []⟩).map some

/-! ### Records -/

/-- `_run_record`. -/
def runRecord (cfg : PipelineConfig K) (s : Surroundings K) (a : Attempt K) (status : RunStatus) (reason : Option String) :
    Except PipelineError (RunRecord K) :=
  let row : RunRow K := ⟨a.runId, cfg.mode, a.asOf, cfg.configHash, status, a.started, some s.now,
    reason.map fun reason => PyText.slice reason 1000, s.spentUsd⟩
  if h : row.Valid then .ok ⟨row, h⟩ else .error .invalid

/-- The record of one verdict, if it is not stored yet. -/
def newRecord (inputs : StepInputs K) (a : Attempt K) (complete : Bool) (v : Verdict K) :
    Except PipelineError (Option (VerdictRecord K (Verdict K))) :=
  match securityOf inputs.entities v.envelope.entityToken with
  | none => .error .keyError
  | some securityId =>
    let key := taskOf a.runId v securityId
    if key ∈ a.stored then .ok none
    else
      match a.telemetry.lookup key with
      | none => if complete then .error .noTelemetry else .ok none
      | some t => .ok (some ⟨a.runId, securityId, v.agent, v, t.tokensIn, t.tokensOut, t.costUsd, t.latencyMs⟩)

/-- `_new_verdict_records`. -/
def newVerdictRecords (inputs : StepInputs K) (a : Attempt K) (complete : Bool) :
    Except PipelineError (List (VerdictRecord K (Verdict K))) := do
  let records ← (a.voters.map Verdict.vote ++ a.reds.map Verdict.red).mapM (newRecord inputs a complete)
  return records.filterMap id

/-- The artifacts of a step; what belongs to another run is refused. -/
def artifacts (run : RunRecord K) (verdicts : List (VerdictRecord K (Verdict K))) (decisions : List (CommitteeDecisionRecord K))
    (portfolio : Option (PortfolioSnapshot K)) (commitment : Option DecisionCommitment) (dlq : List DlqRecord) :
    Except PipelineError (StepArtifacts K (Verdict K)) :=
  if h : (∀ v ∈ verdicts, v.runId = run.runId) ∧ (∀ d ∈ decisions, d.decision.runId = run.runId) ∧
      (∀ p ∈ portfolio, p.runId = run.runId) ∧ (∀ c ∈ commitment, c.runId = run.runId) ∧ (∀ d ∈ dlq, d.runId = run.runId) then
    .ok ⟨run, verdicts, decisions, portfolio, commitment, dlq, [], h.1, h.2.1, h.2.2.1, h.2.2.2.1, h.2.2.2.2, nofun⟩
  else .error .invalid

/-- What is flushed without a book. -/
def unfinished (cfg : PipelineConfig K) (s : Surroundings K) (a : Attempt K) (status : RunStatus) (complete : Bool)
    (reason : String) : Except PipelineError (StepArtifacts K (Verdict K)) := do
  let run ← runRecord cfg s a status (some reason)
  let verdicts ← newVerdictRecords s.inputs a complete
  artifacts run verdicts [] none none s.deadLetters

/-! ### Steps -/

section Steps
variable [FloorRing K] (fl : PyFloat K) (py : PyText) (fns : Pooling.PoolFns K) (sha256 : String → Sha256Hex)
  (F : Json.FloatText K) (cfg : PipelineConfig K) (s : Surroundings K)

/-- `call`: one batch. What its sink was given is collected; its telemetry is kept when it returns. -/
def callAgents (entities : List (EntityData K)) (redTeamIds : List SecurityId) (done : List TaskKey)
    (schedule : List (Move K)) : Steps K (Runner.Result K) := do
  let a ← get
  match Runner.runAgents fl py s.inputs.partitioner entities redTeamIds ⟨a.runId, done, cfg.concurrency⟩ schedule with
  | none => throw .schedule
  | some (.error e) => throw (.runner e)
  | some (.ok batch) => do
    modify fun a => batch.sunk.foldl Attempt.collect a
    match batch.raised with
    | some e => throw (.runner e)
    | none => do
      modify fun a => { a with telemetry := batch.result.telemetry ++ a.telemetry }
      return batch.result

/-- The voting stage: the result of the first batch. -/
def votingStage : Steps K (Runner.Result K) := do
  let a ← get
  callAgents fl py cfg s s.inputs.entities [] a.stored s.first

/-- `_group`: the verdicts by token, in the order of their first. -/
def groupByToken (verdicts : List (AgentVerdict K)) : List (EntityToken × List (AgentVerdict K)) :=
  (verdicts.map (·.entityToken)).dedup.map fun token => (token, verdicts.filter fun v => v.entityToken = token)

/-- The pool of one group; none if no agent votes. -/
def poolGroup (group : EntityToken × List (AgentVerdict K)) : Except PipelineError (Option (SecurityId × PooledForecast K)) :=
  match Pooling.poolAgentVerdicts fns group.2 s.inputs.baseRates cfg.committee s.inputs.history with
  | .error .noVotingAgents => .ok none
  | .error e => .error (.pooling e)
  | .ok forecast =>
    match securityOf s.inputs.entities group.1 with
    | none => .error .keyError
    | some securityId => .ok (some (securityId, forecast))

/-- The pooled forecasts by security. -/
def poolVerdicts (verdicts : List (AgentVerdict K)) : Except PipelineError (List (SecurityId × PooledForecast K)) := do
  let pooled ← (groupByToken verdicts).mapM (poolGroup fns cfg s)
  return pooled.filterMap id

/-- The candidates of the red team: the highest logits at the primary horizon. -/
def candidates (pooled : List (SecurityId × PooledForecast K)) : Except PipelineError (List SecurityId) := do
  let scored ← pooled.mapM fun x =>
    match x.2.pool cfg.primary with
    | none => .error .keyError
    | some pool => .ok (x.1, pool.logit)
  return ((scored.insertionSort fun a b => b.2 < a.2 ∨ (a.2 = b.2 ∧ a.1 ≤ b.1)).take redTeamTopN).map Prod.fst

/-- `_fits`: a horizon without observations passes the logit through. -/
def fitAt (h : Horizon) : Except PipelineError (CalibrationFit K) :=
  if h ∉ cfg.horizons then .error .keyError
  else .ok ((s.inputs.fitted h).getD ⟨h, 0, 1, false, s.inputs.independentPeriods h, 0, none⟩)

/-- `_volatilities`: a truth value counts as a number. -/
def volatilities (entities : List (EntityData K)) : Dict Int K :=
  entities.foldl (fun out e =>
    match e.features.values.get? volFeature with
    | some (.number x) => if 0 < x then out.set e.securityId.val x else out
    | some (.bool true) => out.set e.securityId.val 1
    | _ => out) Dict.empty

/-- The bear severity of each reviewed name. -/
def bearOf (reds : List RedTeamVerdict) : Except PipelineError (Dict Int (Option BearSeverity)) :=
  reds.foldlM (fun bear r =>
    match securityOf s.inputs.entities r.entityToken with
    | none => .error .keyError
    | some securityId => .ok (bear.set securityId.val (some r.bearSeverity))) Dict.empty

/-- A target weight, as the contract checks it. -/
def makeWeight (x : K) : Except PipelineError (Weight K) :=
  if h : 0 ≤ x ∧ x ≤ maxPositionCap K then .ok ⟨x, h⟩ else .error .invalid

def makeProbability (x : K) : Except PipelineError (Probability K) :=
  if h : 0 ≤ x ∧ x ≤ 1 then .ok ⟨x, h⟩ else .error .invalid

/-- `pooled_p` of a pool. -/
def pooledP (pool : HorizonPool K) : Except PipelineError (Probability K) := do
  let fit ← fitAt cfg s pool.horizon
  makeProbability (Sizing.sigmoid fns.toMathFns (fit.alpha + fit.beta * pool.logit))

/-- `_decision_records`, of one pool. -/
def decisionRecord (a : Attempt K) (bear : Dict Int (Option BearSeverity)) (cio : CioResult K) (calibrated : Bool)
    (securityId : SecurityId) (token : EntityToken) (pool : HorizonPool K) :
    Except PipelineError (CommitteeDecisionRecord K) := do
  let p ← pooledP fns cfg s pool
  let weight ← makeWeight
    (((cio.book.positions.find? fun x => x.securityId = securityId).map fun x => x.targetWeight.val).getD 0)
  let action := if cio.alert then none else
    (cio.decision.bind fun d => d.decisions.find? fun n => n.entityToken = token).map (·.action)
  let decision : CommitteeDecision K := ⟨a.runId, securityId, token, a.asOf, pool.horizon, p, pool.dispersion, pool.weights,
    (bear.get? securityId.val).join, weight, pool.weights_nonempty, pool.weights_unique, Or.inr pool.weights_voting⟩
  return ⟨decision, some pool.logit, some (if calibrated then .calibrated else .rank), action,
    cio.decision.map (·.rationale.val), cioRationale_short cio⟩
where
  cioRationale_short (cio : CioResult K) :
      ∀ text ∈ cio.decision.map (·.rationale.val), text.length ≤ 4000 := by
    intro text h
    obtain ⟨d, -, rfl⟩ := Option.map_eq_some_iff.mp h
    exact d.rationale.property.2

/-- `_decision_records`. -/
def decisionRecords (a : Attempt K) (pooled : List (SecurityId × PooledForecast K))
    (bear : Dict Int (Option BearSeverity)) (cio : CioResult K) (calibrated : Bool) :
    Except PipelineError (List (CommitteeDecisionRecord K)) := do
  let records ← (pooled.insertionSort fun x y => x.1 ≤ y.1).mapM fun x =>
    x.2.pools.mapM (decisionRecord fns cfg s a bear cio calibrated x.1 x.2.entityToken)
  return records.flatten

/-- The snapshot of the final book, as the contract checks it. -/
def makeSnapshot (a : Attempt K) (cio : CioResult K) : Except PipelineError (PortfolioSnapshot K) := do
  let cash ← makeProbability cio.book.cashWeight
  if h : cio.book.runId = a.runId ∧ cio.book.asOf.instant = a.asOf.instant ∧ |cash.val - cio.book.cashWeight| ≤ 1e-9 then
    return ⟨a.runId, a.asOf, cio.book, cash, cio.decision, h.1, h.2.1, h.2.2⟩
  else throw .invalid

/-- The artifacts of a committed step. -/
def commit (a : Attempt K) (pooled : List (SecurityId × PooledForecast K)) (bear : Dict Int (Option BearSeverity))
    (cio : CioResult K) (calibrated : Bool) : Except PipelineError (StepArtifacts K (Verdict K)) := do
  let records ← decisionRecords fns cfg s a pooled bear cio calibrated
  let snapshot ← makeSnapshot a cio
  let run ← runRecord cfg s a .committed none
  let verdicts ← newVerdictRecords s.inputs a true
  match commitmentHash sha256 F run records snapshot with
  | .error e => throw (.commitment e)
  | .ok hash => artifacts run verdicts records (some snapshot) (some ⟨a.runId, hash, s.now⟩) s.deadLetters

/-- Stacker, sizing, CIO and commitment. -/
def bookStage (a : Attempt K) (pooled : List (SecurityId × PooledForecast K)) :
    Except PipelineError (StepArtifacts K (Verdict K)) := do
  let fit ← fitAt cfg s cfg.primary
  let bear ← bearOf s a.reds
  let sectors := s.inputs.entities.foldl (fun d e => d.set e.securityId.val e.sector) (Dict.empty : Dict Int String)
  let forecasts := pooled.foldl (fun d x => d.set x.1.val x.2) (Dict.empty : Dict Int (PooledForecast K))
  match Sizing.sizeCommitteeBook fns.toMathFns a.runId a.asOf forecasts bear sectors (volatilities s.inputs.entities) fit
      cfg.risk with
  | .error e => throw (.sizing e)
  | .ok book =>
    match s.cio book with
    | .raised => throw .cio
    | .aborted name => unfinished cfg s a .partialRun true ("CIO aborted: " ++ name)
    | .result cio =>
      -- no valid reply is not an approval
      if book.positions ≠ [] ∧ cio.decision.isNone then
        unfinished cfg s a .partialRun true "CIO produced no valid decision"
      else commit fns sha256 F cfg s a pooled bear cio fit.active

/-- The red team on the top names. Without candidates there is no second batch. -/
def redTeamStage (redIds : List SecurityId) (done : List TaskKey) : Steps K RunStatus :=
  if redIds = [] then
    if s.second.isEmpty then return .agentsOk else throw .schedule
  else do
    let second ← callAgents fl py cfg s (s.inputs.entities.filter fun e => e.securityId ∈ redIds) redIds done s.second
    return second.status

/-- `_execute`: what the step flushes. -/
def execute : Steps K (StepArtifacts K (Verdict K)) := do
  let seeded ← get
  let first ← votingStage fl py cfg s
  let a ← get
  if first.status = .partialRun then
    let names := (first.aborted.map Prod.snd).dedup.insertionSort (· ≤ ·)
    ofExcept (unfinished cfg s a .partialRun true ("voting stage aborted: " ++ ", ".intercalate names))
  else do
    let pooled ← ofExcept (poolVerdicts fns cfg s a.voters)
    let redIds ← ofExcept (candidates cfg pooled)
    let second ← redTeamStage fl py cfg s redIds (seeded.stored ++ first.completed)
    let a ← get
    if second = .partialRun then ofExcept (unfinished cfg s a .partialRun true "red team stage aborted")
    else ofExcept (bookStage fns sha256 F cfg s a pooled)

/-! ### A step of a run -/

variable (json : AuditJson K)

/-- `_record_failure`: best effort. -/
def recordFailure (db : RunTables K (Verdict K)) (a : Attempt K) (e : PipelineError) : RunTables K (Verdict K) :=
  match unfinished cfg s a .failed false (s.failure e) with
  | .error _ => db
  | .ok step => Sink.step sha256 json db (.flushStep step)

/-- `run_step`: the tables after it, and what was flushed; none is a stored run that was returned as it is. A process
    that dies before the flush leaves the tables as they are. -/
def runStep (db : RunTables K (Verdict K)) (runId : UUID) (asOf : AwareDatetime) :
    RunTables K (Verdict K) × Except PipelineError (Option (StepArtifacts K (Verdict K))) :=
  match begin_ cfg s db runId asOf with
  | .error e => (db, .error e)
  | .ok none => (db, .ok none)
  | .ok (some a) =>
    match (execute fl py fns sha256 F cfg s).run.run a with
    | (.error e, a) => (recordFailure sha256 cfg s json db a e, .error e)
    | (.ok step, a) =>
      match Sink.flushStep sha256 json db step with
      | .error e => (recordFailure sha256 cfg s json db a (.store e), .error (.store e))
      | .ok db => (db, .ok (some step))

end Steps
end Pipeline
end AsymmetricCommittee
