import AsymmetricCommittee.Contracts.Commitment
import AsymmetricCommittee.Store.Runs

/-! Committed material written to its rows and rebuilt from them (`store/_material.py`, `store/write.py`). -/

namespace AsymmetricCommittee

/-! ### Columns -/

/-- The texts that pydantic gives datetimes and UUIDs in JSON, and the UTC offset that the session reads an instant
    back in. -/
structure StoreCodec where
  datetimeText : AwareDatetime → String
  parseDatetime : String → Option AwareDatetime
  uuidText : UUID → String
  parseUuid : String → Option UUID
  sessionOffset : Int → Int
  parse_datetimeText : ∀ d, ∃ d', parseDatetime (datetimeText d) = some d' ∧ d'.instant = d.instant
  parse_uuidText : ∀ u, parseUuid (uuidText u) = some u

/-- A `timestamptz` column as it is read back. -/
def StoreCodec.timestamptz (c : StoreCodec) (d : AwareDatetime) : AwareDatetime := ⟨d.instant, c.sessionOffset d.instant⟩

/-- A `JSONB` column as it is read back: the keys of an object come by length, then in order. -/
def jsonb {N : Type} (j : Json N) : Json N := j.sortBy fun key => toLex (key.utf8ByteSize, key)

namespace PyValue
variable {N : Type} (c : StoreCodec)

mutual
/-- `model_dump(mode="json")` of what the value is a dump of. -/
def json : PyValue N → Json N
  | .enum value => json value
  | .datetime d => .str (c.datetimeText d)
  | .uuid u => .str (c.uuidText u)
  | .bool b => .bool b
  | .none => .null
  | .int n => .int n
  | .str s => .str s
  | .float x => .float x
  | .dict items => .obj (jsonEntries items)
  | .list items => .arr (jsonItems items)

def jsonEntries : List (String × PyValue N) → List (String × Json N)
  | [] => []
  | e :: es => (e.1, json e.2) :: jsonEntries es

def jsonItems : List (PyValue N) → List (Json N)
  | [] => []
  | v :: vs => json v :: jsonItems vs
end

end PyValue

/-- A row of `committee_decisions` as the driver gives it. -/
structure DecisionColumns (K : Type) where
  runId : UUID
  securityId : Int
  horizon : Int
  entityToken : Option String
  pooledP : K
  pooledLogit : Option K
  dispersion : K
  sizingMode : Option String
  bearSeverity : Option String
  weights : Json K
  targetWeight : K
  cioAction : Option String
  rationale : Option String

/-- A row of `portfolio_snapshots` as the driver gives it. -/
structure SnapshotColumns (K : Type) where
  runId : UUID
  asOf : AwareDatetime
  cashWeight : K
  book : Json K
  cio : Option (Json K)

/-! ### Validation of what was read -/

section Validate
variable {N : Type}

/-- The fields of an object that has no others; `none` refuses it. -/
def Json.record? (fields : List String) : Json N → Option (String → Option (Json N))
  | .obj es => if ∀ e ∈ es, e.1 ∈ fields then some fun key => es.lookup key else none
  | _ => none

def Json.str? : Json N → Option String
  | .str s => some s
  | _ => none

def Json.int? : Json N → Option Int
  | .int n => some n
  | _ => none

def Json.float? [IntCast N] : Json N → Option N
  | .float x => some x
  | .int n => some n
  | _ => none

def Json.arr? : Json N → Option (List (Json N))
  | .arr js => some js
  | _ => none

/-- The member of an enumeration with a value. -/
def ofValue? {α β : Type} [DecidableEq β] (members : List α) (value : α → β) (b : β) : Option α :=
  members.find? fun a => value a = b

def AgentName.ofValue? : String → Option AgentName :=
  AsymmetricCommittee.ofValue? [.value, .qualityCatalyst, .insider, .technical, .macroNarrative, .redTeam, .cio,
    .quantBaseline] AgentName.enumValue

def BearSeverity.ofValue? : String → Option BearSeverity := AsymmetricCommittee.ofValue? [.low, .med, .high] value

def CioAction.ofValue? : String → Option CioAction := AsymmetricCommittee.ofValue? [.approve, .veto, .flagForReview] value

def SizingMode.ofValue? : String → Option SizingMode := AsymmetricCommittee.ofValue? [.rank, .calibrated] value

def Horizon.ofValue? : Int → Option Horizon := AsymmetricCommittee.ofValue? [.d5, .d21, .d63] value

/-- An enumeration column that may be empty. -/
def enumOrNone {α : Type} (ofValue? : String → Option α) : Option String → Option (Option α)
  | none => some none
  | some s => if s = "" then some none else (ofValue? s).map some

def label? (s : String) : Option Label := if h : 1 ≤ s.length ∧ s.length ≤ 128 then some ⟨s, h⟩ else none

def entityToken? (s : String) : Option EntityToken := if h : isEntityToken s = true then some ⟨s, h⟩ else none

def securityId? (n : Int) : Option SecurityId := if h : 1 ≤ n then some ⟨n, h⟩ else none

variable {K : Type} [Field K] [LinearOrder K]

def probability? (x : K) : Option (Probability K) := if h : 0 ≤ x ∧ x ≤ 1 then some ⟨x, h⟩ else none

def weight? (x : K) : Option (Weight K) := if h : 0 ≤ x ∧ x ≤ maxPositionCap K then some ⟨x, h⟩ else none

def nonNegative? (x : K) : Option (NonNegative K) := if h : 0 ≤ x then some ⟨x, h⟩ else none

def AgentWeight.validate (j : Json K) : Option (AgentWeight K) := do
  let field ← j.record? ["agent", "weight"]
  let agent ← AgentName.ofValue? (← (← field "agent").str?)
  let weight ← nonNegative? (← (← field "weight").float?)
  return ⟨agent, weight⟩

def ProposedPosition.validate (j : Json K) : Option (ProposedPosition K) := do
  let field ← j.record? ["security_id", "entity_token", "sector", "pooled_p", "target_weight"]
  let securityId ← securityId? (← (← field "security_id").int?)
  let entityToken ← entityToken? (← (← field "entity_token").str?)
  let sector ← label? (← (← field "sector").str?)
  let pooledP ← probability? (← (← field "pooled_p").float?)
  let targetWeight ← weight? (← (← field "target_weight").float?)
  return ⟨securityId, entityToken, sector, pooledP, targetWeight⟩

def ProposedBook.validate (c : StoreCodec) (j : Json K) : Option (ProposedBook K) := do
  let field ← j.record? ["run_id", "as_of", "positions"]
  let runId ← c.parseUuid (← (← field "run_id").str?)
  let asOf ← c.parseDatetime (← (← field "as_of").str?)
  let positions ← (← (← field "positions").arr?).mapM ProposedPosition.validate
  (ProposedBook.make runId asOf positions).toOption

def CioNameDecision.validate (j : Json N) : Option CioNameDecision := do
  let field ← j.record? ["entity_token", "action", "reason"]
  let entityToken ← entityToken? (← (← field "entity_token").str?)
  let action ← CioAction.ofValue? (← (← field "action").str?)
  let reason ← (← field "reason").str?
  if h : reason.length ≤ 1000 ∧ (action ≠ .approve → isBlank reason = false) then
    some ⟨entityToken, action, reason, h.1, h.2⟩
  else none

/-- `Literal[AgentName.CIO]`, which is also the default. -/
def cioAgent? : Option (Json N) → Option Unit
  | none => some ()
  | some j => do
    let agent ← j.str?
    if agent = AgentName.cio.enumValue then some () else none

def CioDecision.validate (c : StoreCodec) (j : Json N) : Option CioDecision := do
  let field ← j.record? ["decisions", "rationale", "run_id", "agent", "as_of", "prompt_version", "model_served"]
  let decisions ← (← (← field "decisions").arr?).mapM CioNameDecision.validate
  let rationale ← (← field "rationale").str?
  let runId ← c.parseUuid (← (← field "run_id").str?)
  cioAgent? (field "agent")
  let asOf ← c.parseDatetime (← (← field "as_of").str?)
  let promptVersion ← label? (← (← field "prompt_version").str?)
  let modelServed ← label? (← (← field "model_served").str?)
  if h : (1 ≤ rationale.length ∧ rationale.length ≤ 4000) ∧ (decisions.map (·.entityToken)).Nodup then
    some ⟨decisions, ⟨rationale, h.1⟩, runId, asOf, promptVersion, modelServed, h.2⟩
  else none

/-- `CioDecision | None`. -/
def validateCio (c : StoreCodec) : Option (Json N) → Option (Option CioDecision)
  | none => some none
  | some j => (CioDecision.validate c j).map some

end Validate

/-! ### Rows of the material -/

/-- `MaterialDefectKind`: why stored rows could not be rebuilt into the committed material. -/
inductive MaterialDefectKind where
  | snapshotMissing
  | snapshotInvalid
  | decisionEntityTokenMissing
  | decisionRowInvalid
  deriving DecidableEq, Repr

section Rows
variable {K : Type} [Field K] [LinearOrder K] (c : StoreCodec)

/-- The columns that `insert_committee_decisions` writes. -/
def DecisionRow.columns (r : DecisionRow K) : DecisionColumns K where
  runId := r.runId
  securityId := r.securityId
  horizon := r.horizon.value
  entityToken := r.entityToken.map (·.val)
  pooledP := r.pooledP
  pooledLogit := r.pooledLogit
  dispersion := r.dispersion
  sizingMode := r.sizingMode.map (·.value)
  bearSeverity := r.bearSeverity.map (·.value)
  weights := jsonb (.arr (r.weights.map fun w => w.dump.json c))
  targetWeight := r.targetWeight
  cioAction := r.cioAction.map (·.value)
  rationale := r.rationale

/-- The columns that `insert_portfolio_snapshot` writes. -/
def PortfolioSnapshot.columns (s : PortfolioSnapshot K) : SnapshotColumns K where
  runId := s.runId
  asOf := c.timestamptz s.asOf
  cashWeight := s.cashWeight
  book := jsonb (s.book.dump.json c)
  cio := s.cio.map fun cio => jsonb (cio.dump.json c)

/-- The record of a row whose token is stored; `none` is the `ValueError` of a field. -/
def decisionOfColumns (run : RunRecord K) (token : String) (r : DecisionColumns K) :
    Option (CommitteeDecisionRecord K) := do
  let securityId ← securityId? r.securityId
  let entityToken ← entityToken? token
  let horizonDays ← Horizon.ofValue? r.horizon
  let pooledP ← probability? r.pooledP
  let dispersion ← nonNegative? r.dispersion
  let agentWeights ← (← r.weights.arr?).mapM AgentWeight.validate
  let bearSeverity ← enumOrNone BearSeverity.ofValue? r.bearSeverity
  let targetWeight ← weight? r.targetWeight
  let sizingMode ← enumOrNone SizingMode.ofValue? r.sizingMode
  let cioAction ← enumOrNone CioAction.ofValue? r.cioAction
  if h : agentWeights ≠ [] ∧ (agentWeights.map (·.agent)).Nodup ∧
      (agentWeights.map (·.agent) = [.quantBaseline] ∨ ∀ w ∈ agentWeights, w.agent ∈ votingAgents) ∧
      ∀ text ∈ r.rationale, text.length ≤ 4000 then
    some {
      decision := {
        runId := run.runId, securityId, entityToken, asOf := run.asOf, horizonDays, pooledP, dispersion, agentWeights,
        bearSeverity, targetWeight, weights_nonempty := h.1, weights_unique := h.2.1, weights_voting := h.2.2.1 }
      pooledLogit := r.pooledLogit, sizingMode, cioAction, rationale := r.rationale, rationale_short := h.2.2.2 }
  else none

def decisionFromRow (run : RunRecord K) (r : DecisionColumns K) :
    Except MaterialDefectKind (CommitteeDecisionRecord K) :=
  match r.entityToken with
  | none => .error .decisionEntityTokenMissing
  | some token =>
    match decisionOfColumns run token r with
    | none => .error .decisionRowInvalid
    | some record => .ok record

def decisionsFromRows (run : RunRecord K) (rows : List (DecisionColumns K)) :
    Except MaterialDefectKind (List (CommitteeDecisionRecord K)) := rows.mapM (decisionFromRow run)

/-- `snapshot_from_row`; `none` is the `ValidationError`. -/
def snapshotFromRow (row : SnapshotColumns K) : Option (PortfolioSnapshot K) := do
  let book ← ProposedBook.validate c row.book
  let cashWeight ← probability? row.cashWeight
  let cio ← validateCio c row.cio
  if h : book.runId = row.runId ∧ book.asOf.instant = row.asOf.instant ∧ |cashWeight.val - book.cashWeight| ≤ 1e-9 then
    some {
      runId := row.runId, asOf := row.asOf, book, cashWeight, cio, book_run := h.1, book_asOf := h.2.1,
      cash_residual := h.2.2 }
  else none

end Rows

/-! ### Loading -/

namespace Store
variable {K V : Type} [Field K] [LinearOrder K] (c : StoreCodec)

/-- Why the material of a run cannot be loaded. -/
inductive MaterialError where
  | runInvalid
  | noStoredBook
  | rowsInvalid
  | defect (kind : MaterialDefectKind)
  deriving DecidableEq, Repr

/-- A run row as it is read back. -/
def readRun (row : RunRow K) : RunRow K :=
  { row with
    asOf := c.timestamptz row.asOf
    startedAt := c.timestamptz row.startedAt
    endedAt := row.endedAt.map c.timestamptz }

def loadRun (db : RunTables K V) (runId : UUID) : Except MaterialError (Option (RunRecord K)) :=
  match db.run? runId with
  | none => .ok none
  | some row => if h : (readRun c row).Valid then .ok (some ⟨readRun c row, h⟩) else .error .runInvalid

def loadSnapshot (db : RunTables K V) (runId : UUID) : Except MaterialError (Option (PortfolioSnapshot K)) :=
  match db.snapshot? runId with
  | none => .ok none
  | some snapshot =>
    match snapshotFromRow c (snapshot.columns c) with
    | none => .error .rowsInvalid
    | some snapshot => .ok (some snapshot)

/-- The stored decisions of a run, by security and horizon. -/
def decisionRows (db : RunTables K V) (runId : UUID) : List (DecisionColumns K) :=
  ((db.committeeDecisions.filter fun d => decide (d.runId = runId)).insertionSort fun d d' =>
    toLex (d.securityId.val, d.horizon.value) ≤ toLex (d'.securityId.val, d'.horizon.value)).map (·.columns c)

def loadDecisions (db : RunTables K V) (run : RunRecord K) : Except MaterialError (List (CommitteeDecisionRecord K)) :=
  match decisionsFromRows run (decisionRows c db run.runId) with
  | .error kind => .error (.defect kind)
  | .ok decisions => .ok decisions

/-- The rows needed to recompute a commitment; none when the run has no commitment row. -/
def loadCommitmentMaterial (db : RunTables K V) (runId : UUID) : Except MaterialError (Option (CommitmentMaterial K)) := do
  match ← loadRun c db runId, db.commitment? runId with
  | some run, some commitment =>
    match ← loadSnapshot c db runId with
    | none => .error .noStoredBook
    | some snapshot =>
      let decisions ← loadDecisions c db run
      return some ⟨run, decisions, snapshot, commitment.sha256, commitment.committedAt, db.anchor? runId⟩
  | _, _ => return none

end Store
end AsymmetricCommittee
