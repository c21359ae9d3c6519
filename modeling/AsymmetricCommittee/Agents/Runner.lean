import AsymmetricCommittee.Agents.Partitions
import AsymmetricCommittee.Contracts.Verdicts

/-! The batch runner (`agents/runner.py`). The calls run concurrently; a schedule says which job goes on next, and how
    each call ends. -/

namespace AsymmetricCommittee
namespace Runner
open Partitions (EntityData Partition Partitioner)

/-- What identifies a task: the run, the stage and the security. -/
structure TaskKey where
  runId : UUID
  stage : AgentName
  securityId : SecurityId
  deriving DecidableEq

/-- What one verdict cost; none is unknown. -/
structure CallTelemetry (K : Type) [Field K] [LinearOrder K] where
  costUsd : NonNegative K
  tokensIn : Option Nat
  tokensOut : Option Nat
  latencyMs : Option Nat

inductive DiscardReason where
  | unparseable
  | unprovidedEvidence
  | deadLettered
  deriving DecidableEq, Repr

def DiscardReason.value : DiscardReason → String
  | .unparseable => "unparseable"
  | .unprovidedEvidence => "unprovided_evidence"
  | .deadLettered => "dead_lettered"

/-- `_ABORTING`: failures that end the run early. -/
inductive Aborting where
  | budgetExceeded
  | usageUnavailable
  | unknownServedModel
  deriving DecidableEq, Repr

/-- `type(exc).__name__`. -/
def Aborting.name : Aborting → String
  | .budgetExceeded => "BudgetExceededError"
  | .usageUnavailable => "UsageUnavailableError"
  | .unknownServedModel => "UnknownServedModelError"

/-- Why the runner itself raises. -/
inductive RunnerError where
  | unknownCandidates
  | render (e : RenderError)
  | noTelemetry
  | call
  deriving DecidableEq

section Runner
variable (K : Type) [Field K] [LinearOrder K]

/-- One call to make. -/
structure Job where
  agent : AgentName
  entity : EntityData K
  part : Partition

/-- How a call ends: with a verdict, without one, with an aborting failure or with another exception. -/
inductive Outcome where
  | verdict (v : Verdict K) (costUsd : K) (cacheHit : Bool) (telemetry : Option (CallTelemetry K))
  | discarded (costUsd : K) (reason : Option DiscardReason)
  | aborting (e : Aborting)
  | raised

/-- Where a job stands: not started, waiting at the gate, calling, or finished. -/
inductive Phase where
  | waiting
  | queued
  | calling
  | finished
  deriving DecidableEq, Repr

/-- What happens next: a job starts, gets through the gate, or its call ends. -/
inductive Move where
  | start (i : Nat)
  | enter (i : Nat)
  | finish (i : Nat) (o : Outcome K)

/-- `RunnerResult`, without its status. -/
structure Result where
  completed : List TaskKey
  skipped : List TaskKey
  discarded : List (TaskKey × String)
  aborted : List (TaskKey × String)
  telemetry : List (TaskKey × CallTelemetry K)
  costUsd : K
  cacheHits : Nat

/-- The runner between two moves: where each job stands, whether it stops, its result so far, what the sink and the
    dead-letter queue were given, and what a call raised. -/
structure State where
  phases : List Phase
  stop : Bool
  result : Result K
  sunk : List (Verdict K)
  deadLetters : List (Job K × String)
  raised : Option RunnerError

variable {K}

/-- The run, the keys that are completed already, and how many calls may run at once. -/
structure Batch where
  runId : UUID
  done : List TaskKey
  concurrency : Nat

def Batch.key (b : Batch) (job : Job K) : TaskKey := ⟨b.runId, job.agent, job.entity.securityId⟩

/-- `_envelope`: a verdict is the answer of its job's agent about its job's entity. -/
def Batch.Envelops (b : Batch) (job : Job K) (v : Verdict K) : Prop :=
  v.agent = job.agent ∧ v.envelope.runId = b.runId ∧ v.envelope.entityToken = job.part.entityToken ∧
    v.envelope.asOf = job.part.asOf

instance (b : Batch) (job : Job K) (v : Verdict K) : Decidable (b.Envelops job v) := inferInstanceAs (Decidable (_ ∧ _))

def State.start (jobs : List (Job K)) : State K :=
  ⟨jobs.map fun _ => .waiting, false, ⟨[], [], [], [], [], 0, 0⟩, [], [], none⟩

namespace State

def setPhase (s : State K) (i : Nat) (phase : Phase) : State K := { s with phases := s.phases.set i phase }

/-- A job that is not called any more. -/
def abort (s : State K) (i : Nat) (job : Job K) (key : TaskKey) (reason : String) : State K :=
  { s.setPhase i .finished with
    result := { s.result with aborted := s.result.aborted ++ [(key, reason)] }
    deadLetters := s.deadLetters ++ [(job, reason)] }

/-- `one`, when its call ends. -/
def finish (s : State K) (i : Nat) (job : Job K) (key : TaskKey) : Outcome K → State K
  | .verdict v costUsd cacheHit (some telemetry) =>
    { s.setPhase i .finished with
      result := { s.result with
        costUsd := s.result.costUsd + costUsd
        cacheHits := s.result.cacheHits + if cacheHit then 1 else 0
        telemetry := s.result.telemetry ++ [(key, telemetry)]
        completed := s.result.completed ++ [key] }
      sunk := s.sunk ++ [v] }
  | .verdict _ _ _ none => { s.setPhase i .finished with raised := some .noTelemetry }
  | .discarded costUsd reason =>
    { s.setPhase i .finished with
      result := { s.result with
        costUsd := s.result.costUsd + costUsd
        discarded := s.result.discarded ++ [(key, reason.elim "discarded" (·.value))] } }
  | .aborting e =>
    { s.setPhase i .finished with
      stop := true
      result := { s.result with aborted := s.result.aborted ++ [(key, e.name)] }
      -- the budget path has dead-lettered the job already
      deadLetters := s.deadLetters ++ if e = .budgetExceeded then [] else [(job, e.name)] }
  | .raised => { s.setPhase i .finished with raised := some .call }

end State

/-- One move; none is one that cannot happen. -/
def move (b : Batch) (jobs : List (Job K)) (s : State K) (m : Move K) : Option (State K) :=
  if s.raised.isSome then none
  else
    match m with
    | .start i =>
      match jobs[i]?, s.phases[i]? with
      | some job, some .waiting =>
        if b.key job ∈ b.done then
          some { s.setPhase i .finished with result := { s.result with skipped := s.result.skipped ++ [b.key job] } }
        else if s.stop then some (s.abort i job (b.key job) "run_aborted")
        else some (s.setPhase i .queued)
      | _, _ => none
    | .enter i =>
      match jobs[i]?, s.phases[i]? with
      | some job, some .queued =>
        if b.concurrency ≤ s.phases.count .calling then none
        else if s.stop then some (s.abort i job (b.key job) "run_aborted")
        else some (s.setPhase i .calling)
      | _, _ => none
    | .finish i o =>
      match jobs[i]?, s.phases[i]? with
      | some job, some .calling =>
        match o with
        | .verdict v _ _ _ => if b.Envelops job v then some (s.finish i job (b.key job) o) else none
        | _ => some (s.finish i job (b.key job) o)
      | _, _ => none

/-- A schedule from a state on. -/
def moves (b : Batch) (jobs : List (Job K)) (s : State K) (schedule : List (Move K)) : Option (State K) :=
  schedule.foldlM (move b jobs) s

/-- Whether the batch is over: a call raised, or every job is finished. -/
def State.over (s : State K) : Bool := s.raised.isSome || s.phases.all (· = .finished)

/-- The jobs of one entity. -/
def jobsOf [FloorRing K] (fl : PyFloat K) (py : PyText) (p : Partitioner K) (redTeamIds : List SecurityId)
    (e : EntityData K) : Except RenderError (List (Job K)) := do
  let value ← p.value fl e
  let qualityCatalyst ← p.qualityCatalyst fl py e
  let insider ← p.insider fl py e
  let technical ← p.technical fl e
  let macroNarrative ← p.macroNarrative fl py e
  let voting : List (Job K) := [⟨.value, e, value⟩, ⟨.qualityCatalyst, e, qualityCatalyst⟩, ⟨.insider, e, insider⟩,
    ⟨.technical, e, technical⟩, ⟨.macroNarrative, e, macroNarrative⟩]
  if e.securityId ∈ redTeamIds then do
    let red ← p.redTeam fl py e
    return voting ++ [⟨.redTeam, e, red⟩]
  else return voting

/-- Every voting agent for every entity, and the red team for the candidates. -/
def makeJobs [FloorRing K] (fl : PyFloat K) (py : PyText) (p : Partitioner K) (entities : List (EntityData K))
    (redTeamIds : List SecurityId) : Except RunnerError (List (Job K)) :=
  if ∃ id ∈ redTeamIds, ∀ e ∈ entities, e.securityId ≠ id then .error .unknownCandidates
  else
    match entities.mapM (jobsOf fl py p redTeamIds) with
    | .error e => .error (.render e)
    | .ok jobs => .ok jobs.flatten

/-- `run_agents`, over a schedule that ends it; none is a schedule that does not. -/
def runAgents [FloorRing K] (fl : PyFloat K) (py : PyText) (p : Partitioner K) (entities : List (EntityData K))
    (redTeamIds : List SecurityId) (b : Batch) (schedule : List (Move K)) : Option (Except RunnerError (State K)) :=
  match makeJobs fl py p entities redTeamIds with
  | .error e => some (.error e)
  | .ok jobs => ((moves b jobs (State.start jobs) schedule).filter State.over).map .ok

/-- The status: PARTIAL if a job was aborted or dead-lettered. -/
def Result.status (r : Result K) : RunStatus :=
  if r.aborted ≠ [] ∨ ∃ d ∈ r.discarded, d.2 = "dead_lettered" then .partialRun else .agentsOk

end Runner
end Runner
end AsymmetricCommittee
