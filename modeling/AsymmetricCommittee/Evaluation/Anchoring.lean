import AsymmetricCommittee.Contracts.Commitment
import AsymmetricCommittee.Evaluation.OpenTimestamps

/-! External anchoring (`evaluation/anchoring.py`): the git manifest and the handling of OpenTimestamps proofs. What
    reaches the network is an argument: `fetch` asks a calendar, `header` looks a block up. -/

namespace AsymmetricCommittee
open OpenTimestamps

/-- Why a proof or manifest does not bind the commitment it claims to (`AnchorBindingError`). -/
inductive BindingDefect where
  | replyEmptyOrTooLarge
  | replyInvalid
  | replyWithoutAttestation
  | proofEmptyOrTooLarge
  | fileInvalid
  | hashNotSha256
  | differentDigest
  | noAttestation
  | noVerifiedAttestation
  | manifestContradicts
  | manifestPath
  | manifestUncommitted
  | commitUnreachable
  | headerMismatch
  deriving DecidableEq, Repr

/-- What anchoring raises. -/
inductive AnchorError where
  | binding (defect : BindingDefect)
  /-- A calendar, git remote or header source could not be reached. -/
  | unavailable
  /-- The run cannot be anchored. -/
  | notEligible
  /-- What is stored does not recompute to the commitment. -/
  | integrity
  /-- What the package or the store raises. -/
  | other
  deriving DecidableEq, Repr

namespace Anchoring

/-- `MANIFEST_VERSION`. -/
def manifestVersion : String := "anchor_v1"

def maxProofBytes : Nat := 256 * 1024

def maxFragmentBytes : Nat := 64 * 1024

/-- The calendar URIs still promising an attestation, and the heights of the Bitcoin attestations. -/
structure ProofStatus where
  pending : List String
  bitcoinHeights : List Nat
  deriving DecidableEq, Repr

def ProofStatus.confirmed (status : ProofStatus) : Bool := !status.bitcoinHeights.isEmpty

structure BitcoinConfirmation where
  height : Nat
  blockTime : Int
  deriving DecidableEq, Repr

/-! ### The manifest -/

/-- `anchor_manifest`: the file committed to the public git remote. -/
def anchorManifest {K : Type} (F : Json.FloatText K) (runId : UUID) (sha256 : Sha256Hex) (committedAt : AwareDatetime) : Bytes :=
  let doc : Json K := .obj [("v", .str manifestVersion), ("run_id", .str runId.str), ("sha256", .str sha256),
    ("committed_at", .str (IsoTime.isoMicros committedAt.instant committedAt.offset))]
  (String.ofList (Json.render F (doc.sortBy id) ++ ['\n'])).toUTF8.toList

def manifestPath (runId : UUID) : String := "anchors/" ++ runId.str ++ ".json"

/-! ### Proofs -/

/-- The value of a hexadecimal digit. -/
def hexValue (c : Char) : Nat := if c.toNat < 58 then c.toNat - 48 else c.toNat - 87

/-- `bytes.fromhex` of the digits. -/
def fromHex : List Char → Bytes
  | hi :: lo :: rest => UInt8.ofNat (16 * hexValue hi + hexValue lo) :: fromHex rest
  | _ => []

variable {O Header : Type} [DecidableEq O] (ots : Package O Header)

/-- A calendar's reply for a message: bounded, and malformed or trailing data is an error. -/
def parseFragment (data msg : Bytes) : Except BindingDefect (Timestamp O) :=
  if data = [] ∨ maxFragmentBytes < data.length then .error .replyEmptyOrTooLarge
  else
    match ots.deserializeReply data msg with
    | none => .error .replyInvalid
    | some tree => if ots.allAttestations ⟨msg, tree⟩ = [] then .error .replyWithoutAttestation else .ok ⟨msg, tree⟩

def loads (proof : Bytes) : Except BindingDefect (DetachedFile O) :=
  if proof = [] ∨ maxProofBytes < proof.length then .error .proofEmptyOrTooLarge
  else
    match ots.deserialize proof with
    | none => .error .fileInvalid
    | some file => .ok file

/-- What the attestations of a proof promise and say. -/
def proofStatus (attestations : List (Bytes × Attestation)) : ProofStatus where
  pending := (attestations.filterMap fun x => match x.2 with
    | .pending uri => some uri
    | _ => none).insertionSort fun a b => a ≤ b
  bitcoinHeights := (attestations.filterMap fun x => match x.2 with
    | .bitcoin height => some height
    | _ => none).insertionSort fun a b => a ≤ b

/-- The proof must be a SHA-256 detached file for exactly this digest, with an attestation. -/
def checkBinding (proof : Bytes) (sha256 : Sha256Hex) : Except BindingDefect ProofStatus :=
  match loads ots proof with
  | .error defect => .error defect
  | .ok file =>
    let digest := fromHex sha256.val.toList
    let status := proofStatus (ots.allAttestations file.timestamp)
    if file.fileHashOp ≠ .sha256 then .error .hashNotSha256
    else if file.fileDigest ≠ digest ∨ file.timestamp.msg ≠ digest then .error .differentDigest
    else if status.pending = [] ∧ status.bitcoinHeights = [] then .error .noAttestation
    else .ok status

mutual

/-- `_walk`: the places of a tree. -/
def walk : OpTree O → List (List O)
  | .node _ ops => [] :: walkOps ops

def walkOps : List (O × OpTree O) → List (List O)
  | [] => []
  | (op, child) :: rest => (walk child).map (op :: ·) ++ walkOps rest

end

section Effects
variable {m : Type → Type} [Monad m] [MonadExceptOf AnchorError m]

/-- Raise the defect. -/
def binding {α : Type} : Except BindingDefect α → m α
  | .ok a => pure a
  | .error defect => throw (.binding defect)

/-- Merge a calendar's reply for the message at a place; the pending attestation is dropped once the reply has a
    Bitcoin one. -/
def mergeReply (path : List O) (att : Attestation) (fragment : Timestamp O) (ts : OpTree O) : OpTree O :=
  let ts := ts.modifyAt (fun node => ots.merge node fragment.tree) path
  if (ots.allAttestations fragment).any fun x => x.2.isBitcoin then ts.modifyAt (OpTree.discard att) path else ts

/-- Ask the calendar of one attestation. -/
def upgradeAttestation (fetch : String → Bytes → m (Option Bytes)) (path : List O) (msg : Bytes)
    (acc : OpTree O × Bool) (att : Attestation) : m (OpTree O × Bool) :=
  match att with
  | .pending uri => do
    match ← fetch uri msg with
    | none => pure acc
    | some data => do
      let fragment ← binding (parseFragment ots data msg)
      pure (mergeReply ots path att fragment acc.1, true)
  | _ => pure acc

/-- Ask the calendars of one place of the tree of a message. -/
def upgradeNode (fetch : String → Bytes → m (Option Bytes)) (msg : Bytes) (acc : OpTree O × Bool) (path : List O) :
    m (OpTree O × Bool) :=
  match acc.1.follow path with
  | none => pure acc
  | some node => node.attestations.foldlM (upgradeAttestation ots fetch path (ots.messageAt msg path)) acc

/-- Ask each pending calendar for its completed timestamp and merge what comes back; whether the file changed. -/
def upgrade (file : DetachedFile O) (fetch : String → Bytes → m (Option Bytes)) : m (DetachedFile O × Bool) := do
  let (tree, changed) ← (walk file.timestamp.tree).foldlM (upgradeNode ots fetch file.timestamp.msg)
    (file.timestamp.tree, false)
  pure ({ file with timestamp := ⟨file.timestamp.msg, tree⟩ }, changed)

/-- The confirmation of the lower height. -/
def lowest (best : Option BitcoinConfirmation) (found : BitcoinConfirmation) : BitcoinConfirmation :=
  match best with
  | none => found
  | some best => if found.height < best.height then found else best

def confirmStep (header : Nat → m Header) (best : Option BitcoinConfirmation) (x : Bytes × Attestation) :
    m (Option BitcoinConfirmation) :=
  match x.2 with
  | .bitcoin height => do
    let h ← header height
    match ots.verifyAgainstBlockheader height x.1 h with
    | none => pure best
    | some blockTime => pure (some (lowest best ⟨height, blockTime⟩))
  | _ => pure best

/-- Verify a Bitcoin attestation against the real block header. -/
def confirmBitcoin (proof : Bytes) (sha256 : Sha256Hex) (header : Nat → m Header) : m BitcoinConfirmation := do
  let _ ← binding (checkBinding ots proof sha256)
  let file ← binding (loads ots proof)
  match ← (ots.allAttestations file.timestamp).foldlM (confirmStep ots header) none with
  | none => throw (.binding .noVerifiedAttestation)
  | some best => pure best

end Effects

/-- `confirm_bitcoin` accepts the proof, when every header is the chain's. -/
def Accepted (chain : Nat → Header) (proof : Bytes) (sha256 : Sha256Hex) : Prop :=
  ∃ confirmation,
    confirmBitcoin (m := Except AnchorError) ots proof sha256 (fun height => .ok (chain height)) = .ok confirmation

end Anchoring
end AsymmetricCommittee
