import AsymmetricCommittee.Agents.Billing
import AsymmetricCommittee.Orchestration.Pipeline

/-! The attempts of a run on its budget (`RunBudget` in `run_step`). The calls of a batch run in threads of their own; the
    runner waits for them, also when it raises. What an attempt has spent is what its flush stores. -/

namespace AsymmetricCommittee
namespace Runner
open Partitions (Partition)

section Types
variable (K : Type) [Field K] [LinearOrder K]

/-- What the cache holds for a job when its call begins, and how long the call takes. -/
structure Lookup where
  cached : Option (String × VerdictLLM K)
  latencyMs : Nat

/-- A batch at work: the runner, the calls on the budget, and the runner's moves so far. -/
structure Working where
  runner : State K
  threads : Spenders (List Message) (ClientReply K) K (Outcome K × List String)
  schedule : List (Move K)

/-- What happens next in a batch: a move of the runner, or the next step of a call that is at work. -/
inductive Tick where
  | start (i : Nat)
  | enter (i : Nat)
  | call (i : Nat) (reply : ClientReply K)
  | finish (i : Nat)

end Types

variable {K : Type} [Field K] [LinearOrder K]

namespace Working

/-- A batch before its first move. -/
def start [IsStrictOrderedRing K] (b : Batch) (env : Setting K) (jobs : List (Job K)) (lookup : Nat → Lookup K) (spent : K) :
    Working K :=
  ⟨State.start jobs, ⟨spent, jobs.mapIdx fun i job => callBilled b env job (lookup i).cached (lookup i).latencyMs, []⟩, []⟩

variable (b : Batch) (jobs : List (Job K)) (ceiling : K)

def move (w : Working K) (m : Move K) : Option (Working K) :=
  (Runner.move b jobs w.runner m).map fun s => { w with runner := s, schedule := w.schedule ++ [m] }

/-- One tick; none is one that cannot happen. -/
def tick (w : Working K) : Tick K → Option (Working K)
  | .start i => w.move b jobs (.start i)
  | .enter i => w.move b jobs (.enter i)
  | .call i reply =>
    if w.runner.phases[i]? = some .calling then some { w with threads := w.threads.turn ceiling i reply } else none
  | .finish i =>
    match w.threads.calls[i]? with
    | some (.done result) => w.move b jobs (.finish i result.1)
    | _ => none

def run (w : Working K) (ticks : List (Tick K)) : Option (Working K) := ticks.foldlM (tick b jobs ceiling) w

/-- Every call that was begun has ended. -/
def Settled (w : Working K) : Prop :=
  ∀ i : Nat, w.runner.phases[i]? = some .calling → ∃ result, w.threads.calls[i]? = some (.done result)

/-- A call ended with the exception of the budget, whether or not the runner saw it. -/
def Breached (w : Working K) : Prop :=
  ∃ (i : Nat) (letters : List String), w.threads.calls[i]? = some (.done (.aborting .budgetExceeded, letters))

/-- A batch that is over, from what was spent before it. -/
def Over [IsStrictOrderedRing K] (env : Setting K) (spent : K) (w : Working K) : Prop :=
  ∃ lookup ticks, (start b env jobs lookup spent).run b jobs ceiling ticks = some w ∧ w.runner.over = true ∧ w.Settled

end Working
end Runner

namespace Pipeline
open Runner (TaskKey Working Job makeJobs)
variable {K : Type} [Field K] [LinearOrder K]

/-- How the stage takes what `run_cio` returns or raises. -/
def cioReply : Except Cio.CioError (Cio.Result K) → CioReply K
  | .ok r => .result ⟨r.book, r.decision, r.alert.isSome⟩
  | .error .budgetExceeded => .aborted "BudgetExceededError"
  | .error .unknownServedModel => .aborted "UnknownServedModelError"
  | .error (.tier _) => .aborted "CioTierError"
  | .error .usageUnavailable => .aborted "UsageUnavailableError"
  | .error .validation => .raised
  | .error .raised => .raised

section Asked
variable [FloorRing K] (fl : PyFloat K) (py : PyText) (fns : Pooling.PoolFns K) (cfg : PipelineConfig K) (s : Surroundings K)

/-- The book that is sized from the pooled forecasts. -/
def sizedBook (a : Attempt K) (pooled : List (SecurityId × PooledForecast K)) : Except PipelineError (ProposedBook K) := do
  let fit ← fitAt cfg s cfg.primary
  let bear ← bearOf s a.reds
  let sectors := s.inputs.entities.foldl (fun d e => d.set e.securityId.val e.sector) (Dict.empty : Dict Int String)
  let forecasts := pooled.foldl (fun d x => d.set x.1.val x.2) (Dict.empty : Dict Int (PooledForecast K))
  match Sizing.sizeCommitteeBook fns.toMathFns a.runId a.asOf forecasts bear sectors (volatilities s.inputs.entities) fit
      cfg.risk with
  | .error e => throw (.sizing e)
  | .ok book => return book

/-- The book that the CIO is asked about; none if a batch ends the step. -/
def asked : Steps K (Option (ProposedBook K)) := do
  let seeded ← get
  let first ← votingStage fl py cfg s
  let a ← get
  if first.status = .partialRun then return none
  else do
    let pooled ← ofExcept (poolVerdicts fns cfg s a.voters)
    let redIds ← ofExcept (candidates cfg pooled)
    let second ← redTeamStage fl py cfg s redIds (seeded.stored ++ first.completed)
    let a ← get
    if second = .partialRun then return none
    else ofExcept ((sizedBook fns cfg s a pooled).map some)

/-- The book that the CIO is asked about in an attempt, if it comes to that. -/
def askedBook (a : Attempt K) : Option (ProposedBook K) :=
  match (asked fl py fns cfg s).run.run a with
  | (.ok book, _) => book
  | (.error _, _) => none

end Asked

section Bill
variable [FloorRing K] [IsStrictOrderedRing K] (fl : PyFloat K) (py : PyText) (fns : Pooling.PoolFns K) (cfg : PipelineConfig K)
  (env : Runner.Setting K) (cio : Cio.Setting K) (ceiling : Positive K)

/-- The jobs of a batch; there is no batch if its inputs cannot be rendered, or nothing is called. -/
def BatchJobs (s : Surroundings K) (entities : List (Partitions.EntityData K)) (ids : List SecurityId) (jobs : List (Job K)) :
    Prop :=
  makeJobs fl py s.inputs.partitioner entities ids = .ok jobs ∨ jobs = []

/-- The CIO's call about a book, on what the agents left of the budget. -/
def cioCall (second : Working K) (book : ProposedBook K) : Except Cio.CioError (Cio.Result K) × Cio.Talk K :=
  Cio.runCio cio book (some ⟨ceiling, second.threads.spent⟩)

/-- What an attempt meets is what its calls come to on one budget, which begins with what was spent before. -/
structure Billed (a : Attempt K) (s : Surroundings K) (before : K) (first second : Working K) : Prop where
  first_over : ∃ jobs, BatchJobs fl py s s.inputs.entities [] jobs ∧
    first.Over ⟨a.runId, a.stored, cfg.concurrency⟩ jobs ceiling.val env before
  first_schedule : s.first = first.schedule
  second_over : ∃ ids done jobs, BatchJobs fl py s (s.inputs.entities.filter fun e => e.securityId ∈ ids) ids jobs ∧
    second.Over ⟨a.runId, done, cfg.concurrency⟩ jobs ceiling.val env first.threads.spent
  second_schedule : s.second = second.schedule
  models : cio.models = env.models
  cio_reply : ∀ book, s.cio book = cioReply (cioCall cio ceiling second book).1
  spent : some s.spentUsd.val = match askedBook fl py fns cfg s a with
    | none => some second.threads.spent
    | some book => (cioCall cio ceiling second book).2.budget.map (·.spentUsd)

/-- The replies that an attempt was given: the agents' and the CIO's. -/
def replies (a : Attempt K) (s : Surroundings K) (first second : Working K) : List (ClientReply K) :=
  first.threads.replies.map Prod.snd ++ second.threads.replies.map Prod.snd ++
    (askedBook fl py fns cfg s a).elim [] fun book => (cioCall cio ceiling second book).2.answers.map .ok

end Bill
end Pipeline
end AsymmetricCommittee
