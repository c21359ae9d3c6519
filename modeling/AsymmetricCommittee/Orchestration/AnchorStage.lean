import AsymmetricCommittee.Evaluation.Anchoring
import AsymmetricCommittee.Lib.Program
import AsymmetricCommittee.Orchestration.Sink
import AsymmetricCommittee.Store.Material

/-! The anchoring stage (`orchestration/anchor_stage.py`): COMMITTED to ANCHORED, and later the Bitcoin
    confirmation. Everything that reaches the store, a calendar, the git remote, a header source or the clock is a
    call; every call may fail. -/

namespace AsymmetricCommittee
open OpenTimestamps Anchoring

/-- What the stage asks of its surroundings. A calendar request is labelled with the run it is made for. -/
inductive AnchorCall where
  | loadRun (runId : UUID)
  | loadCommitmentMaterial (runId : UUID)
  | markAnchored (anchor : CommitmentAnchor)
  | recordDlq (record : DlqRecord)
  | anchorsAwaitingConfirmation
  | recordAnchor (anchor : CommitmentAnchor)
  | stamp (runId : UUID) (sha256 : Sha256Hex)
  | fetch (runId : UUID) (uri : String) (commitment : Bytes)
  | header (height : Nat)
  | gitAnchor (path : String) (manifest : Bytes)
  | isReachable (commit : String)
  | clock

/-- What each call returns. -/
def AnchorCall.Result (K Header : Type) [Field K] [LinearOrder K] : AnchorCall → Type
  | .loadRun _ => Option (RunRecord K)
  | .loadCommitmentMaterial _ => Option (CommitmentMaterial K)
  | .markAnchored _ => Bool
  | .recordDlq _ => Unit
  | .anchorsAwaitingConfirmation => List CommitmentAnchor
  | .recordAnchor _ => Unit
  | .stamp _ _ => Bytes
  | .fetch _ _ _ => Option Bytes
  | .header _ => Header
  | .gitAnchor _ _ => String
  | .isReachable _ => Bool
  | .clock => AwareDatetime

/-- A call returns or raises. -/
def anchorCalls (K Header : Type) [Field K] [LinearOrder K] : Interface where
  Call := AnchorCall
  Reply c := Except AnchorError (c.Result K Header)

namespace AnchorStage
variable {K Header O : Type} [Field K] [LinearOrder K] [DecidableEq O]

abbrev Steps (K Header α : Type) [Field K] [LinearOrder K] : Type := Act (anchorCalls K Header) Unit AnchorError α

/-- Make a call. -/
def call (c : AnchorCall) : Steps K Header (c.Result K Header) := do
  let reply ← Act.ask (I := anchorCalls K Header) c
  match (reply : Except AnchorError (c.Result K Header)) with
  | .ok a => pure a
  | .error e => throw e

/-! ### `AnchorStage` -/

/-- `_ANCHORED_OR_LATER`. -/
def anchoredOrLater : List RunStatus := [.anchored, .executed, .scored]

structure AnchorResult where
  runId : UUID
  status : RunStatus
  /-- Only for the call that performed COMMITTED to ANCHORED. -/
  advanced : Bool
  gitCommit : Option String

section Stage
variable (sha256 : String → Sha256Hex) (F : Json.FloatText K) (ots : Package O Header) (message : AnchorError → String)

/-- The dead letter of a run whose rows do not recompute to its commitment. -/
def mismatchRecord (run : RunRecord K) (e : AnchorError) : DlqRecord where
  runId := run.runId
  asOf := run.asOf
  agent := ⟨"anchor", by decide⟩
  errorType := ⟨"commitment_mismatch", by decide⟩
  payload := [("detail", String.ofList ((message e).toList.take 500))]

/-- `_dead_letter`: the integrity error must reach the caller even if this write fails. -/
def deadLetter (run : RunRecord K) (e : AnchorError) : Steps K Header Unit :=
  tryCatch (call (.recordDlq (mismatchRecord message run e))) fun _ => pure ()

/-- The stored material, recomputed. -/
def loadVerified (run : RunRecord K) : Steps K Header (CommitmentMaterial K) := do
  match ← call (.loadCommitmentMaterial run.runId) with
  | none => throw .notEligible
  | some material =>
    match verifyMaterial sha256 F material with
    | .error _ => throw .integrity
    | .ok _ => pure material

/-- `_verified`. -/
def verified (run : RunRecord K) : Steps K Header (CommitmentMaterial K) :=
  tryCatch (loadVerified sha256 F run) fun e =>
    if e = .integrity then do
      deadLetter message run e
      throw e
    else throw e

/-- Prove that the stored anchor still binds. -/
def replay (runId : UUID) (run : RunRecord K) (material : CommitmentMaterial K) : Steps K Header AnchorResult :=
  match material.anchor.bind (·.otsProof), material.anchor.bind (·.gitCommit) with
  | some proof, some commit => do
    let _ ← binding (checkBinding ots proof material.storedSha256)
    pure ⟨runId, run.status, false, some commit.val⟩
  | _, _ => throw .integrity

/-- The stored proof, or a new one. -/
def storedOrStamped (runId : UUID) (material : CommitmentMaterial K) : Steps K Header Bytes :=
  match (material.anchor.bind (·.otsProof)).filter (· ≠ []) with
  | some proof => pure proof
  | none => call (.stamp runId material.storedSha256)

/-- The proof to anchor with: a stored one is reused if it still binds the hash. -/
def proofFor (runId : UUID) (material : CommitmentMaterial K) : Steps K Header Bytes := do
  let proof ← storedOrStamped runId material
  let _ ← binding (checkBinding ots proof material.storedSha256)
  pure proof

/-- Store the anchor of a reachable commit. -/
def markAnchored (runId : UUID) (material : CommitmentMaterial K) (proof : Bytes) (commit : String) :
    Steps K Header AnchorResult := do
  let anchoredAt : AwareDatetime ← call .clock
  if h : 1 ≤ commit.length ∧ commit.length ≤ 128 then do
    let advanced : Bool ← call (.markAnchored {
      runId, sha256 := material.storedSha256, otsProof := some proof, gitCommit := some ⟨commit, h⟩,
      anchoredAt, verifiedAt := none })
    pure ⟨runId, .anchored, advanced, some commit⟩
  else throw .other

/-- Commit the manifest, and store the anchor once it is reachable. -/
def advance (runId : UUID) (material : CommitmentMaterial K) : Steps K Header AnchorResult := do
  let proof ← proofFor ots runId material
  let commit : String ← call (.gitAnchor (manifestPath runId)
    (anchorManifest F runId material.storedSha256 material.committedAt))
  let reachable : Bool ← call (.isReachable commit)
  if reachable = false then throw (.binding .commitUnreachable)
  else markAnchored runId material proof commit

def anchorRun (runId : UUID) : Steps K Header AnchorResult := do
  match ← call (.loadRun runId) with
  | none => throw .notEligible
  | some run => do
    let material ← verified sha256 F message run
    if run.status ∈ anchoredOrLater then replay ots runId run material
    else if run.status ≠ .committed then throw .notEligible
    else advance F ots runId material

end Stage

/-! ### `AnchorUpgrader` -/

structure UpgradeSummary where
  checked : Nat
  upgraded : Nat
  confirmed : Nat
  failed : Nat
  deriving DecidableEq, Repr

/-- What checking one anchor found: its proof now, whether that changed, and when it was confirmed. -/
structure CheckedAnchor where
  proof : Bytes
  changed : Bool
  verifiedAt : Option AwareDatetime

section Upgrader
variable (ots : Package O Header) (headers : Bool)

/-- `dumps`. -/
def dumps (file : DetachedFile O) : Steps K Header Bytes :=
  match ots.serialize file with
  | none => throw .other
  | some proof => pure proof

/-- The proof to store: the upgraded file if it changed, and else the stored bytes. -/
def proofNow (file : DetachedFile O) (changed : Bool) (stored : Bytes) : Steps K Header Bytes :=
  if changed = true then dumps ots file else pure stored

/-- When a proof with a Bitcoin attestation verified against a header. -/
def confirmAt (proof : Bytes) (sha256 : Sha256Hex) (status : ProofStatus) : Steps K Header (Option AwareDatetime) :=
  if status.confirmed ∧ headers = true then do
    let _ ← confirmBitcoin ots proof sha256 fun height => call (.header height)
    let verifiedAt : AwareDatetime ← call .clock
    pure (some verifiedAt)
  else pure none

/-- What `upgrade_all` does of one anchor before it writes. -/
def checkAnchor (anchor : CommitmentAnchor) (stored : Bytes) : Steps K Header CheckedAnchor := do
  let file ← binding (loads ots stored)
  let (file, changed) ← upgrade ots file fun uri commitment => call (.fetch anchor.runId uri commitment)
  let proof ← proofNow ots file changed stored
  let status ← binding (checkBinding ots proof anchor.sha256)
  let verifiedAt ← confirmAt ots headers proof anchor.sha256 status
  pure ⟨proof, changed, verifiedAt⟩

/-- Store what changed. -/
def recordChecked (anchor : CommitmentAnchor) (found : CheckedAnchor) (summary : UpgradeSummary) :
    Steps K Header UpgradeSummary :=
  if found.changed = true ∨ found.verifiedAt.isSome then do
    call (.recordAnchor {
      runId := anchor.runId, sha256 := anchor.sha256, otsProof := some found.proof, gitCommit := none,
      anchoredAt := anchor.anchoredAt, verifiedAt := found.verifiedAt })
    pure { summary with
      upgraded := summary.upgraded + if found.changed = true then 1 else 0
      confirmed := summary.confirmed + if found.verifiedAt.isSome then 1 else 0 }
  else pure summary

/-- Only a proof that does not bind is passed over; every other exception ends the pass. -/
def upgradeOne (summary : UpgradeSummary) (anchor : CommitmentAnchor) : Steps K Header UpgradeSummary :=
  let summary := { summary with checked := summary.checked + 1 }
  match anchor.otsProof with
  | none => pure summary
  | some stored => do
    let found ← tryCatch (some <$> checkAnchor ots headers anchor stored) fun e =>
      match e with
      | .binding _ => pure none
      | e => throw e
    match found with
    | none => pure { summary with failed := summary.failed + 1 }
    | some found => recordChecked anchor found summary

def upgradeAll : Steps K Header UpgradeSummary := do
  let anchors : List CommitmentAnchor ← call .anchorsAwaitingConfirmation
  anchors.foldlM (upgradeOne ots headers) ⟨0, 0, 0, 0⟩

end Upgrader
end AnchorStage
end AsymmetricCommittee
