import AsymmetricCommittee.Orchestration.Sink

/-! Claims of runs (`store/write.py`): one run per mode, decision time and configuration, however many workers
    ask. -/

namespace AsymmetricCommittee
namespace Store
variable {K V : Type} [Field K] [LinearOrder K]

/-- `_ACTIVE`. -/
def active : List RunStatus :=
  [.pending, .ingestOk, .featuresOk, .gated, .agentsOk, .committed, .anchored, .executed, .scored]

/-- What a claim asks for: the slot, and the run to create in it. -/
structure ClaimRequest where
  mode : RunMode
  asOf : AwareDatetime
  configHash : Sha256Hex
  runId : UUID
  startedAt : AwareDatetime
  fresh : Bool

/-- `RunRecord.model_validate` of a stored row. -/
def runRecord (row : RunRow K) : Except StoreError (RunRecord K) :=
  if h : row.Valid then .ok ⟨row, h⟩ else .error .invalidRow

/-- The run that a claim creates. -/
def ClaimRequest.record (request : ClaimRequest) : RunRecord K where
  runId := request.runId
  mode := request.mode
  asOf := request.asOf
  configHash := request.configHash
  status := .pending
  startedAt := request.startedAt
  endedAt := none
  statusReason := none
  totalCostUsd := ⟨0, nonNegative_zero K⟩
  valid := ⟨fun _ h => absurd h (Option.not_mem_none _), fun _ h => absurd h (Option.not_mem_none _)⟩

/-- The rows of the claimed slot, newest first. -/
def slotRows (db : RunTables K V) (request : ClaimRequest) : List (RunRow K) :=
  (db.runs.filter fun r => decide (r.mode = request.mode ∧ r.asOf.instant = request.asOf.instant ∧
    r.configHash = request.configHash)).insertionSort fun a b => b.startedAt.instant ≤ a.startedAt.instant

/-- `claim_run`: the newest active run of the slot, or else a new PENDING one; the flag says which. -/
def claimRun (db : RunTables K V) (request : ClaimRequest) : Except StoreError (RunTables K V × RunRecord K × Bool) := do
  let runs ← (slotRows db request).mapM runRecord
  match runs.find? fun r => r.status ∈ active with
  | some run => return (db, run, false)
  | none =>
    if request.fresh = false ∧ runs.any fun r => r.statusReason.any isHaltReason then throw .runHalted
    else return ({ db with runs := KeyedTable.insertNew RunRow.runId db.runs request.record.toRunRow }, request.record, true)

end Store

namespace Sink
variable {K V : Type} [Field K] [LinearOrder K] (sha256 : String → Sha256Hex) (json : AuditJson K)

/-- What workers do to the run tables: they claim runs and write them. -/
inductive WorkerOp (K V : Type) [Field K] [LinearOrder K] where
  | claim (request : Store.ClaimRequest)
  | write (op : Op K V)

/-- The tables after a worker's operation: one that raises is rolled back. -/
def workerStep (db : RunTables K V) : WorkerOp K V → RunTables K V
  | .claim request =>
    match Store.claimRun db request with
    | .ok (db', _) => db'
    | .error _ => db
  | .write op => step sha256 json db op

/-- The tables after a sequence of workers' operations. -/
def workerRun (db : RunTables K V) (ops : List (WorkerOp K V)) : RunTables K V := ops.foldl (workerStep sha256 json) db

end Sink
end AsymmetricCommittee
