import AsymmetricCommittee.Contracts.Records
import AsymmetricCommittee.Lib.Dict
import AsymmetricCommittee.Store.Immutable

/-! The run tables and their writers (`store/write.py`, `store/_tables.py`). A JSON column holds the value that
    was written to it; `sha256` and the JSON texts that deduplicate audit rows are parameters. -/

namespace AsymmetricCommittee

/-- The columns of `committee_decisions`; the decision time is the run's. -/
structure DecisionRow (K : Type) [Field K] [LinearOrder K] where
  runId : UUID
  securityId : SecurityId
  horizon : Horizon
  entityToken : Option EntityToken
  pooledP : Probability K
  pooledLogit : Option K
  dispersion : NonNegative K
  sizingMode : Option SizingMode
  bearSeverity : Option BearSeverity
  weights : List (AgentWeight K)
  targetWeight : Weight K
  cioAction : Option CioAction
  rationale : Option String

/-- An audit row with the digest that makes its replay a no-op. -/
structure DedupeRow (α : Type) where
  record : α
  dedupeKey : Sha256Hex

/-- What a reset cleared. -/
structure ClearedRows (K V : Type) [Field K] [LinearOrder K] where
  agentVerdicts : List (VerdictRecord K V)
  committeeDecisions : List (DecisionRow K)
  portfolioSnapshots : List (PortfolioSnapshot K)

/-- An operator reset, kept for audit. -/
structure RunReset (K V : Type) [Field K] [LinearOrder K] where
  runId : UUID
  resetAt : AwareDatetime
  actor : String
  reason : String
  priorStatus : RunStatus
  cleared : ClearedRows K V

/-- The run tables; a table is the list of its rows, oldest first. -/
structure RunTables (K V : Type) [Field K] [LinearOrder K] where
  securities : List SecurityId
  runs : List (RunRow K)
  agentVerdicts : List (VerdictRecord K V)
  committeeDecisions : List (DecisionRow K)
  portfolioSnapshots : List (PortfolioSnapshot K)
  dlqRecords : List (DedupeRow DlqRecord)
  killSwitchEvents : List (DedupeRow (KillSwitchEvent K))
  decisionCommitments : List DecisionCommitment
  commitmentAnchors : List CommitmentAnchor
  runResets : List (RunReset K V)
  orders : List (ExecutionRecord K)
  haltReferenceRequests : List HaltReferenceRequest

/-- `model_dump_json` of the audit records. -/
structure AuditJson (K : Type) [Field K] [LinearOrder K] where
  event : KillSwitchEvent K → String
  dlq : DlqRecord → String

namespace RunTables
variable {K V : Type} [Field K] [LinearOrder K]

/-! ### Keys -/

def verdictKey (v : VerdictRecord K V) : UUID × SecurityId × AgentName := (v.runId, v.securityId, v.agent)

def decisionKey (d : DecisionRow K) : UUID × SecurityId × Horizon := (d.runId, d.securityId, d.horizon)

def dlqKey (d : DedupeRow DlqRecord) : UUID × Sha256Hex := (d.record.runId, d.dedupeKey)

def eventKey (e : DedupeRow (KillSwitchEvent K)) : UUID × Sha256Hex := (e.record.runId, e.dedupeKey)

def haltReferenceRequestsTable : Store.ImmutableTable HaltReferenceRequest (UUID × KillTrigger) where
  name := .haltReferenceRequests
  key r := (r.runId, r.trigger)
  payload := [Store.Column.of "tau" fun r => r.tau.instant, Store.Column.of "status" fun r => r.status,
    Store.Column.of "requested_at" fun r => r.requestedAt.instant,
    Store.Column.of "source_version" fun r => r.sourceVersion]

/-- The row of a run. -/
def run? (db : RunTables K V) (runId : UUID) : Option (RunRow K) := KeyedTable.find RunRow.runId db.runs runId

/-- The stored status of a run. -/
def status? (db : RunTables K V) (runId : UUID) : Option RunStatus := (db.run? runId).map (·.status)

def commitment? (db : RunTables K V) (runId : UUID) : Option DecisionCommitment :=
  KeyedTable.find DecisionCommitment.runId db.decisionCommitments runId

def anchor? (db : RunTables K V) (runId : UUID) : Option CommitmentAnchor :=
  KeyedTable.find CommitmentAnchor.runId db.commitmentAnchors runId

def snapshot? (db : RunTables K V) (runId : UUID) : Option (PortfolioSnapshot K) :=
  KeyedTable.find PortfolioSnapshot.runId db.portfolioSnapshots runId

/-- `UPDATE runs SET ... WHERE run_id = ... AND` a condition on the row. -/
def updateRun (db : RunTables K V) (runId : UUID) (cond : RunRow K → Bool) (set : RunRow K → RunRow K) : RunTables K V :=
  { db with runs := KeyedTable.modify RunRow.runId db.runs runId fun r => if cond r then set r else r }

/-- `result.rowcount == 1` of that update. -/
def updates (db : RunTables K V) (runId : UUID) (cond : RunRow K → Bool) : Bool := (db.run? runId).any cond

end RunTables

namespace Store
variable {K V : Type} [Field K] [LinearOrder K]

/-! ### The run row -/

/-- `_ADVANCED`. -/
def advanced : List RunStatus := [.committed, .anchored, .executed, .scored]

/-- `_REGRESSIVE`. -/
def regressive : List RunStatus := [.pending, .partialRun, .failed]

/-- `_HALTABLE`: the only states the audited halt transition may leave. -/
def haltable : List RunStatus := [.committed, .anchored, .executed]

/-- The `WHERE` of the upsert: an advanced run is not demoted, and a halted run is terminal. In SQL the reason
    test of a PARTIAL run without a reason is unknown, and an unknown condition updates nothing. -/
def upsertAllowed (stored : RunRow K) (presented : RunStatus) : Bool :=
  !(stored.status ∈ advanced && presented ∈ regressive) &&
    (stored.status != .partialRun || stored.statusReason.any fun reason => !isHaltReason reason)

/-- The mutable part of a run row. -/
def setMutable (presented stored : RunRow K) : RunRow K :=
  { stored with
    status := presented.status
    endedAt := presented.endedAt
    statusReason := presented.statusReason
    totalCostUsd := presented.totalCostUsd }

/-- `upsert_run`: create the run or move it forward. -/
def upsertRun (db : RunTables K V) (run : RunRecord K) : RunTables K V :=
  match db.run? run.runId with
  | none => { db with runs := db.runs ++ [run.toRunRow] }
  | some _ => db.updateRun run.runId (fun stored => upsertAllowed stored run.status) (setMutable run.toRunRow)

/-! ### Outputs of a step -/

/-- A write of rows whose securities must be stored. -/
def securitiesStored (db : RunTables K V) (ids : List SecurityId) : Except StoreError Unit :=
  if ∀ id ∈ ids, id ∈ db.securities then .ok () else .error .foreignKey

/-- A write of rows whose run must be stored. -/
def runStored (db : RunTables K V) (runId : UUID) : Except StoreError Unit :=
  if (db.run? runId).isSome then .ok () else .error .foreignKey

def insertAgentVerdicts (db : RunTables K V) (records : List (VerdictRecord K V)) : Except StoreError (RunTables K V) := do
  securitiesStored db (records.map (·.securityId))
  return { db with agentVerdicts := KeyedTable.insertAll RunTables.verdictKey db.agentVerdicts records }

/-- The row of a decision. -/
def decisionRow (r : CommitteeDecisionRecord K) : DecisionRow K where
  runId := r.decision.runId
  securityId := r.decision.securityId
  horizon := r.decision.horizonDays
  entityToken := some r.decision.entityToken
  pooledP := r.decision.pooledP
  pooledLogit := r.pooledLogit
  dispersion := r.decision.dispersion
  sizingMode := r.sizingMode
  bearSeverity := r.decision.bearSeverity
  weights := r.decision.agentWeights
  targetWeight := r.decision.targetWeight
  cioAction := r.cioAction
  rationale := r.rationale

def insertCommitteeDecisions (db : RunTables K V) (records : List (CommitteeDecisionRecord K)) :
    Except StoreError (RunTables K V) := do
  securitiesStored db (records.map (·.decision.securityId))
  return { db with
    committeeDecisions := KeyedTable.insertAll RunTables.decisionKey db.committeeDecisions (records.map decisionRow) }

def insertPortfolioSnapshot (db : RunTables K V) (snap : PortfolioSnapshot K) : RunTables K V :=
  { db with portfolioSnapshots := KeyedTable.insertNew PortfolioSnapshot.runId db.portfolioSnapshots snap }

section Audit
variable (sha256 : String → Sha256Hex) (json : AuditJson K)

/-- `_dedupe_key` of an audit record. -/
def dedupeRow {α : Type} (dump : α → String) (record : α) : DedupeRow α := ⟨record, sha256 (dump record)⟩

def insertDlqRecords (db : RunTables K V) (records : List DlqRecord) : RunTables K V :=
  { db with dlqRecords := KeyedTable.insertAll RunTables.dlqKey db.dlqRecords (records.map (dedupeRow sha256 json.dlq)) }

def insertKillSwitchEvents (db : RunTables K V) (events : List (KillSwitchEvent K)) : RunTables K V :=
  { db with
    killSwitchEvents :=
      KeyedTable.insertAll RunTables.eventKey db.killSwitchEvents (events.map (dedupeRow sha256 json.event)) }

end Audit

/-- `load_kill_switch_events`: every stored halt of a run, oldest first. -/
def loadKillSwitchEvents (db : RunTables K V) (runId : UUID) : List (KillSwitchEvent K) :=
  ((db.killSwitchEvents.map (·.record)).filter fun e => decide (e.runId = runId)).insertionSort fun a b =>
    a.triggeredAt.instant ≤ b.triggeredAt.instant

/-! ### Commitment and anchor -/

/-- `insert_commitment`: replaying the same hash is a no-op, a different hash raises. -/
def insertCommitment (db : RunTables K V) (commitment : DecisionCommitment) : Except StoreError (RunTables K V) :=
  match db.commitment? commitment.runId with
  | none => .ok { db with decisionCommitments := db.decisionCommitments ++ [commitment] }
  | some stored => if stored.sha256 ≠ commitment.sha256 then .error .commitmentMismatch else .ok db

/-- An anchor brought up to another of the same hash: a proof, a commit or a confirmation is never taken away. -/
def upgradeAnchor (presented stored : CommitmentAnchor) : CommitmentAnchor :=
  { stored with
    otsProof := presented.otsProof.or stored.otsProof
    gitCommit := presented.gitCommit.or stored.gitCommit
    verifiedAt := presented.verifiedAt.or stored.verifiedAt }

/-- `upsert_anchor`: record or upgrade an anchor. The foreign key makes it one of the run's own hash. -/
def upsertAnchor (db : RunTables K V) (anchor : CommitmentAnchor) : Except StoreError (RunTables K V) :=
  match db.anchor? anchor.runId with
  | none =>
    if db.decisionCommitments.any fun c => c.runId = anchor.runId && c.sha256 = anchor.sha256 then
      .ok { db with commitmentAnchors := db.commitmentAnchors ++ [anchor] }
    else .error .foreignKey
  | some stored =>
    if stored.sha256 = anchor.sha256 then
      .ok { db with
        commitmentAnchors :=
          KeyedTable.modify CommitmentAnchor.runId db.commitmentAnchors anchor.runId (upgradeAnchor anchor) }
    else .error .anchorMismatch

/-- `anchors_awaiting_confirmation`: anchors with a proof that no Bitcoin attestation has confirmed yet, oldest
    first. -/
def anchorsAwaitingConfirmation (db : RunTables K V) : List CommitmentAnchor :=
  (db.commitmentAnchors.filter fun a => a.verifiedAt.isNone && a.otsProof.isSome).insertionSort fun a b =>
    a.anchoredAt.instant ≤ b.anchoredAt.instant

/-- `advance_to_anchored`: store the anchor and move COMMITTED to ANCHORED. -/
def advanceToAnchored (db : RunTables K V) (anchor : CommitmentAnchor) : Except StoreError (RunTables K V × Bool) :=
  if anchor.otsProof = none ∨ anchor.gitCommit = none then .error .anchorIncomplete
  else do
    let db ← upsertAnchor db anchor
    let committed := fun r : RunRow K => decide (r.status = .committed)
    return (db.updateRun anchor.runId committed (fun r => { r with status := .anchored }), db.updates anchor.runId committed)

/-- `advance_to_executed`: ANCHORED to EXECUTED as one conditional update. -/
def advanceToExecuted (db : RunTables K V) (runId : UUID) (endedAt : AwareDatetime) : RunTables K V × Bool :=
  let anchored := fun r : RunRow K => decide (r.status = .anchored)
  (db.updateRun runId anchored (fun r => { r with status := .executed, endedAt := some endedAt, statusReason := none }),
    db.updates runId anchored)

/-! ### Halts and resets -/

/-- `HALT_REQUEST_VERSION`. -/
def haltRequestVersion : Version := ⟨"halt_request_v1", by decide⟩

def haltRequest (event : KillSwitchEvent K) : HaltReferenceRequest where
  runId := event.runId
  trigger := event.trigger
  tau := event.triggeredAt
  status := .symbolsPending
  requestedAt := event.triggeredAt
  sourceVersion := haltRequestVersion

/-- `record_halt`: the event row, its reference request and the move to PARTIAL in one transaction. -/
def recordHalt (sha256 : String → Sha256Hex) (json : AuditJson K) (db : RunTables K V) (event : KillSwitchEvent K) :
    Except StoreError (RunTables K V × Bool) := do
  runStored db event.runId
  let db := insertKillSwitchEvents sha256 json db [event]
  let (requests, _) ← insertImmutable RunTables.haltReferenceRequestsTable db.haltReferenceRequests [haltRequest event]
  let db := { db with haltReferenceRequests := requests }
  let haltable := fun r : RunRow K => decide (r.status ∈ haltable)
  return (db.updateRun event.runId haltable (fun r => { r with
    status := .partialRun
    statusReason := some (haltReason event.trigger)
    endedAt := some event.triggeredAt }), db.updates event.runId haltable)

/-- `reset_run`: keep what is cleared, then start over. Refused once the run has audit evidence. -/
def resetRun (db : RunTables K V) (runId : UUID) (actor reason : String) (now : AwareDatetime) :
    Except StoreError (RunTables K V) :=
  match db.run? runId with
  | none => .error (.resetRefused .missingRun)
  | some row =>
    if db.decisionCommitments.any fun c => c.runId = runId then .error (.resetRefused .commitment)
    else if db.commitmentAnchors.any fun a => a.runId = runId then .error (.resetRefused .anchor)
    else if db.orders.any fun o => o.runId = runId then .error (.resetRefused .orders)
    else if db.killSwitchEvents.any fun e => e.record.runId = runId then .error (.resetRefused .killSwitchEvent)
    else
      let cleared : ClearedRows K V :=
        { agentVerdicts := db.agentVerdicts.filter fun v => v.runId = runId
          committeeDecisions := db.committeeDecisions.filter fun d => d.runId = runId
          portfolioSnapshots := db.portfolioSnapshots.filter fun p => p.runId = runId }
      let reset : RunReset K V :=
        { runId := runId, resetAt := now, actor := actor, reason := reason, priorStatus := row.status, cleared := cleared }
      let db := { db with
        runResets := db.runResets ++ [reset]
        agentVerdicts := db.agentVerdicts.filter fun v => v.runId ≠ runId
        committeeDecisions := db.committeeDecisions.filter fun d => d.runId ≠ runId
        portfolioSnapshots := db.portfolioSnapshots.filter fun p => p.runId ≠ runId }
      .ok (db.updateRun runId (fun _ => true) fun r =>
        { r with status := .pending, statusReason := none, endedAt := none })

end Store
end AsymmetricCommittee
