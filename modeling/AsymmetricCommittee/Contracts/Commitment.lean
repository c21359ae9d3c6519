import AsymmetricCommittee.Contracts.Records
import AsymmetricCommittee.Lib.Json
import Mathlib.Data.Prod.Lex

/-! The decision commitment (`contracts/commitment.py`): a canonical JSON document of the run's identity, every
    committee decision and the final portfolio snapshot. `sha256` is a parameter. -/

namespace AsymmetricCommittee

/-! ### Canonical values -/

/-- A Python value as a model is dumped to; an enumeration member carries its value. -/
inductive PyValue (N : Type) where
  | none
  | bool (b : Bool)
  | int (n : Int)
  | float (x : N)
  | str (s : String)
  | enum (value : PyValue N)
  | datetime (d : AwareDatetime)
  | uuid (u : UUID)
  | dict (items : List (String × PyValue N))
  | list (items : List (PyValue N))

/-- `str(uuid)`: 32 hexadecimal digits in five groups. -/
def UUID.str (u : UUID) : String :=
  let hex := (Nat.digitsAppend 16 32 u.int).reverse.map Nat.digitChar
  String.ofList (hex.take 8 ++ '-' :: ((hex.drop 8).take 4 ++ '-' :: ((hex.drop 12).take 4 ++ '-' ::
    ((hex.drop 16).take 4 ++ '-' :: hex.drop 20))))

namespace PyValue
variable {N : Type}

mutual
/-- `_canon`. -/
def canon : PyValue N → Json N
  | .enum value => canon value
  | .datetime d => .str (IsoTime.isoUtcMicros d.instant)
  | .uuid u => .str u.str
  | .bool b => .bool b
  | .none => .null
  | .int n => .int n
  | .str s => .str s
  | .float x => .float x
  | .dict items => .obj (canonEntries items)
  | .list items => .arr (canonItems items)

def canonEntries : List (String × PyValue N) → List (String × Json N)
  | [] => []
  | e :: es => (e.1, canon e.2) :: canonEntries es

def canonItems : List (PyValue N) → List (Json N)
  | [] => []
  | v :: vs => canon v :: canonItems vs
end

mutual
/-- A document as the Python value it is. -/
def ofJson : Json N → PyValue N
  | .null => .none
  | .bool b => .bool b
  | .int n => .int n
  | .float x => .float x
  | .str s => .str s
  | .arr js => .list (ofItems js)
  | .obj es => .dict (ofEntries es)

def ofItems : List (Json N) → List (PyValue N)
  | [] => []
  | j :: js => ofJson j :: ofItems js

def ofEntries : List (String × Json N) → List (String × PyValue N)
  | [] => []
  | e :: es => (e.1, ofJson e.2) :: ofEntries es
end

/-- `None`, or a value. -/
def opt {α : Type} (f : α → PyValue N) : Option α → PyValue N
  | .none => .none
  | .some a => f a

end PyValue

/-! ### `model_dump` -/

section Dump
variable {K : Type} [Field K] [LinearOrder K]

def AgentWeight.dump (w : AgentWeight K) : PyValue K :=
  .dict [("agent", .enum (.str w.agent.enumValue)), ("weight", .float w.weight)]

def CommitteeDecision.dump (d : CommitteeDecision K) : PyValue K :=
  .dict [("run_id", .uuid d.runId), ("security_id", .int d.securityId), ("entity_token", .str d.entityToken),
    ("as_of", .datetime d.asOf), ("horizon_days", .enum (.int d.horizonDays.value)), ("pooled_p", .float d.pooledP),
    ("dispersion", .float d.dispersion), ("agent_weights", .list (d.agentWeights.map (·.dump))),
    ("bear_severity", .opt (fun s => .enum (.str s.value)) d.bearSeverity), ("target_weight", .float d.targetWeight)]

def CommitteeDecisionRecord.dump (r : CommitteeDecisionRecord K) : PyValue K :=
  .dict [("decision", r.decision.dump), ("pooled_logit", .opt .float r.pooledLogit),
    ("sizing_mode", .opt (fun m => .enum (.str m.value)) r.sizingMode),
    ("cio_action", .opt (fun a => .enum (.str a.value)) r.cioAction), ("rationale", .opt .str r.rationale)]

def ProposedPosition.dump (p : ProposedPosition K) : PyValue K :=
  .dict [("security_id", .int p.securityId), ("entity_token", .str p.entityToken), ("sector", .str p.sector),
    ("pooled_p", .float p.pooledP), ("target_weight", .float p.targetWeight)]

def ProposedBook.dump (b : ProposedBook K) : PyValue K :=
  .dict [("run_id", .uuid b.runId), ("as_of", .datetime b.asOf), ("positions", .list (b.positions.map (·.dump)))]

def CioNameDecision.dump (d : CioNameDecision) : PyValue K :=
  .dict [("entity_token", .str d.entityToken), ("action", .enum (.str d.action.value)), ("reason", .str d.reason)]

def CioDecision.dump (d : CioDecision) : PyValue K :=
  .dict [("decisions", .list (d.decisions.map (·.dump))), ("rationale", .str d.rationale), ("run_id", .uuid d.runId),
    ("agent", .enum (.str AgentName.cio.enumValue)), ("as_of", .datetime d.asOf),
    ("prompt_version", .str d.promptVersion), ("model_served", .str d.modelServed)]

def PortfolioSnapshot.dump (s : PortfolioSnapshot K) : PyValue K :=
  .dict [("run_id", .uuid s.runId), ("as_of", .datetime s.asOf), ("book", s.book.dump),
    ("cash_weight", .float s.cashWeight), ("cio", .opt (·.dump) s.cio)]

end Dump

/-! ### The commitment -/

/-- `COMMITMENT_VERSION`. -/
def commitmentVersion : String := "commitment_v1"

/-- Why a commitment cannot be computed, or does not verify. -/
inductive CommitmentError where
  | foreignSnapshot
  | foreignDecision
  | mismatch
  | anchorMismatch
  deriving DecidableEq, Repr

/-- Everything read back from the store to recompute a run's commitment. -/
structure CommitmentMaterial (K : Type) [Field K] [LinearOrder K] where
  run : RunRecord K
  decisions : List (CommitteeDecisionRecord K)
  snapshot : PortfolioSnapshot K
  storedSha256 : Sha256Hex
  committedAt : AwareDatetime
  anchor : Option CommitmentAnchor

section Commitment
variable {K : Type} [Field K] [LinearOrder K]

/-- What the decisions of a commitment are ordered by. -/
def commitmentKey (r : CommitteeDecisionRecord K) : Int ×ₗ Int :=
  toLex (r.decision.securityId.val, r.decision.horizonDays.value)

def commitmentPayload (run : RunRecord K) (decisions : List (CommitteeDecisionRecord K)) (snapshot : PortfolioSnapshot K) :
    Except CommitmentError (PyValue K) :=
  let ordered := decisions.insertionSort fun d d' => commitmentKey d ≤ commitmentKey d'
  if snapshot.runId ≠ run.runId then .error .foreignSnapshot
  else if ∃ d ∈ ordered, d.decision.runId ≠ run.runId then .error .foreignDecision
  else .ok <| .dict [("v", .str commitmentVersion),
    ("run", .dict [("run_id", .uuid run.runId), ("mode", .enum (.str run.mode.value)), ("as_of", .datetime run.asOf),
      ("config_hash", .str run.configHash)]),
    ("decisions", .list (ordered.map fun d => .ofJson d.dump.canon)),
    ("snapshot", .ofJson snapshot.dump.canon)]

/-- `canonical_bytes`: the ASCII text. -/
def canonicalBytes (F : Json.FloatText K) (payload : PyValue K) : String :=
  String.ofList (Json.render F (payload.canon.sortBy id))

variable (sha256 : String → Sha256Hex) (F : Json.FloatText K)

def commitmentHash (run : RunRecord K) (decisions : List (CommitteeDecisionRecord K)) (snapshot : PortfolioSnapshot K) :
    Except CommitmentError Sha256Hex :=
  (commitmentPayload run decisions snapshot).map fun payload => sha256 (canonicalBytes F payload)

/-- Recompute from the rows and compare. -/
def verifyCommitment (storedSha256 : Sha256Hex) (run : RunRecord K) (decisions : List (CommitteeDecisionRecord K))
    (snapshot : PortfolioSnapshot K) : Except CommitmentError Sha256Hex :=
  match commitmentHash sha256 F run decisions snapshot with
  | .error e => .error e
  | .ok recomputed => if recomputed ≠ storedSha256 then .error .mismatch else .ok recomputed

/-- The stored hash and any anchor must both equal the recomputed one. -/
def verifyMaterial (material : CommitmentMaterial K) : Except CommitmentError Sha256Hex :=
  match verifyCommitment sha256 F material.storedSha256 material.run material.decisions material.snapshot with
  | .error e => .error e
  | .ok recomputed =>
    if material.anchor.any fun anchor => anchor.sha256 ≠ recomputed then .error .anchorMismatch else .ok recomputed

end Commitment
end AsymmetricCommittee
