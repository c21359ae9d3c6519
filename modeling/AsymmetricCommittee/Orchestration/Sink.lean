import AsymmetricCommittee.Store.Runs

/-! The only writer of run outputs (`orchestration/sink.py`). Each operation is one transaction: it returns the
    tables after it, or raises and leaves them as they were. -/

namespace AsymmetricCommittee
namespace Sink
variable {K V : Type} [Field K] [LinearOrder K] (sha256 : String → Sha256Hex) (json : AuditJson K)

/-- `flush_step`: write one `as_of` step atomically, the run row first. -/
def flushStep (db : RunTables K V) (step : StepArtifacts K V) : Except StoreError (RunTables K V) := do
  let db := Store.upsertRun db step.run
  let db ← Store.insertAgentVerdicts db step.verdicts
  let db ← Store.insertCommitteeDecisions db step.decisions
  let db := step.portfolio.elim db (Store.insertPortfolioSnapshot db)
  let db := Store.insertDlqRecords sha256 json db step.dlq
  let db := Store.insertKillSwitchEvents sha256 json db step.killSwitch
  step.commitment.elim (.ok db) (Store.insertCommitment db)

/-- The store operations that write a run. -/
inductive Op (K V : Type) [Field K] [LinearOrder K] where
  | flushStep (step : StepArtifacts K V)
  | recordAnchor (anchor : CommitmentAnchor)
  | markAnchored (anchor : CommitmentAnchor)
  | markExecuted (runId : UUID) (endedAt : AwareDatetime)
  | recordHalt (event : KillSwitchEvent K)
  | resetRun (runId : UUID) (actor reason : String) (now : AwareDatetime)

/-- One operation's transaction. -/
def perform (db : RunTables K V) : Op K V → Except StoreError (RunTables K V)
  | .flushStep step => flushStep sha256 json db step
  | .recordAnchor anchor => Store.upsertAnchor db anchor
  | .markAnchored anchor => (Store.advanceToAnchored db anchor).map Prod.fst
  | .markExecuted runId endedAt => .ok (Store.advanceToExecuted db runId endedAt).1
  | .recordHalt event => (Store.recordHalt sha256 json db event).map Prod.fst
  | .resetRun runId actor reason now => Store.resetRun db runId actor reason now

/-- The tables after an operation: one that raises is rolled back. -/
def step (db : RunTables K V) (op : Op K V) : RunTables K V :=
  match perform sha256 json db op with
  | .ok db' => db'
  | .error _ => db

/-- The tables after a sequence of operations. -/
def run (db : RunTables K V) (ops : List (Op K V)) : RunTables K V := ops.foldl (step sha256 json) db

end Sink
end AsymmetricCommittee
