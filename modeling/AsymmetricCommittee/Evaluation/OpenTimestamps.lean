import AsymmetricCommittee.Contracts.Models

/-! What the code uses of the `opentimestamps` package. A timestamp is a tree: a message, the attestations of it,
    and the operations that lead on to further timestamps. Reading and writing its bytes, merging two of them and
    checking an attestation against a block header are the package's. -/

namespace AsymmetricCommittee
namespace OpenTimestamps

abbrev Bytes := List UInt8

inductive Attestation where
  | pending (uri : String)
  | bitcoin (height : Nat)
  | unknown (tag payload : Bytes)
  deriving DecidableEq, Repr

def Attestation.isBitcoin : Attestation → Bool
  | .bitcoin _ => true
  | _ => false

/-- The attestations of a message, and the operations that lead on from it. `O` are the operations. -/
inductive OpTree (O : Type) where
  | node (attestations : List Attestation) (ops : List (O × OpTree O))

namespace OpTree
variable {O : Type} [DecidableEq O]

def attestations : OpTree O → List Attestation
  | .node attestations _ => attestations

def ops : OpTree O → List (O × OpTree O)
  | .node _ ops => ops

/-- What operations lead to. -/
def follow (ts : OpTree O) : List O → Option (OpTree O)
  | [] => some ts
  | op :: path => (ts.ops.lookup op).bind fun child => child.follow path

/-- The tree with what operations lead to changed in place. -/
def modifyAt (f : OpTree O → OpTree O) (ts : OpTree O) : List O → OpTree O
  | [] => f ts
  | op :: path => .node ts.attestations
      (ts.ops.map fun x => if x.1 = op then (x.1, x.2.modifyAt f path) else x)

/-- `attestations.discard(att)`. -/
def discard (att : Attestation) (ts : OpTree O) : OpTree O :=
  .node (ts.attestations.filter fun a => a ≠ att) ts.ops

/-- Everything of the one tree is also in the other. -/
def Extends (ts ts' : OpTree O) : Prop :=
  ∀ path n, ts.follow path = some n → ∃ n', ts'.follow path = some n' ∧ n.attestations ⊆ n'.attestations

/-- Every Bitcoin attestation of the one tree is also in the other. -/
def Grows (ts ts' : OpTree O) : Prop :=
  ∀ path n, ts.follow path = some n → ∃ n', ts'.follow path = some n' ∧
    ∀ height, .bitcoin height ∈ n.attestations → .bitcoin height ∈ n'.attestations

variable {ts ts' ts'' : OpTree O} {f : OpTree O → OpTree O}

theorem Extends.grows (h : ts.Extends ts') : ts.Grows ts' := by
  intro path n hn
  obtain ⟨n', hn', hatt⟩ := h path n hn
  exact ⟨n', hn', fun height hheight => hatt hheight⟩

theorem Grows.refl (ts : OpTree O) : ts.Grows ts := fun _ n hn => ⟨n, hn, fun _ h => h⟩

theorem Grows.trans (h : ts.Grows ts') (h' : ts'.Grows ts'') : ts.Grows ts'' := by
  intro path n hn
  obtain ⟨n', hn', hatt⟩ := h path n hn
  obtain ⟨n'', hn'', hatt'⟩ := h' path n' hn'
  exact ⟨n'', hn'', fun height hheight => hatt' height (hatt height hheight)⟩

theorem grows_discard {att : Attestation} (h : att.isBitcoin = false) (ts : OpTree O) : ts.Grows (ts.discard att) := by
  intro path n hn
  cases path with
  | nil =>
    cases hn
    refine ⟨_, rfl, fun height hheight => List.mem_filter.mpr ⟨hheight, ?_⟩⟩
    rw [decide_eq_true_iff]
    rintro rfl
    cases h
  | cons op path => exact ⟨n, hn, fun _ h => h⟩

theorem follow_append (ts : OpTree O) (path path' : List O) :
    ts.follow (path ++ path') = (ts.follow path).bind fun n => n.follow path' := by
  induction path generalizing ts with
  | nil => rfl
  | cons op path ih =>
    simp only [List.cons_append, follow]
    cases ts.ops.lookup op with
    | none => rfl
    | some child => exact ih child

theorem lookup_modify (ops : List (O × OpTree O)) (op op' : O) :
    (ops.map fun x => if x.1 = op then (x.1, f x.2) else x).lookup op' =
      (ops.lookup op').map fun child => if op' = op then f child else child := by
  induction ops with
  | nil => rfl
  | cons x ops ih =>
    obtain ⟨key, child⟩ := x
    rw [List.map_cons]
    by_cases hx : op' = key
    · subst hx
      split <;> simp [*]
    · have hne : (op' == key) = false := beq_eq_false_iff_ne.mpr hx
      split
      · simp only [List.lookup_cons, hne, ih]
      · simp only [List.lookup_cons, hne, ih]

theorem follow_cons_modifyAt (ts : OpTree O) (op op' : O) (path path' : List O) :
    (ts.modifyAt f (op :: path)).follow (op' :: path') = (ts.ops.lookup op').bind fun child =>
      (if op' = op then child.modifyAt f path else child).follow path' := by
  have hops : (ts.modifyAt f (op :: path)).ops =
      ts.ops.map fun x => if x.1 = op then (x.1, x.2.modifyAt f path) else x := rfl
  rw [follow, hops, lookup_modify (f := fun child => child.modifyAt f path), Option.bind_map]
  rfl

theorem follow_modifyAt (ts : OpTree O) (path : List O) :
    (ts.modifyAt f path).follow path = (ts.follow path).map f := by
  induction path generalizing ts with
  | nil => rfl
  | cons op path ih =>
    rw [follow_cons_modifyAt, follow]
    cases ts.ops.lookup op with
    | none => rfl
    | some child =>
      rw [Option.bind_some, Option.bind_some, if_pos rfl]
      exact ih child

/-- Every attestation of a kind of the one tree is also in the other. -/
def Carries (kind : Attestation → Prop) (ts ts' : OpTree O) : Prop :=
  ∀ path n, ts.follow path = some n → ∃ n', ts'.follow path = some n' ∧
    ∀ att ∈ n.attestations, kind att → att ∈ n'.attestations

theorem carries_modifyAt {kind : Attestation → Prop} {path : List O}
    (h : ∀ n, ts.follow path = some n → n.Carries kind (f n)) : ts.Carries kind (ts.modifyAt f path) := by
  induction path generalizing ts with
  | nil => exact h ts rfl
  | cons op path ih =>
    intro path' n hn
    cases path' with
    | nil =>
      cases hn
      exact ⟨_, rfl, fun _ h _ => h⟩
    | cons op' path' =>
      obtain ⟨child, hchild, hn⟩ := Option.bind_eq_some_iff.mp hn
      rw [follow_cons_modifyAt, hchild, Option.bind_some]
      split
      · next hop =>
        -- the changed child, or what is below it
        subst hop
        refine ih (fun n hn => h n ?_) path' n hn
        rw [follow, hchild]
        exact hn
      · exact ⟨n, hn, fun _ h _ => h⟩

theorem grows_modifyAt {path : List O} (h : ∀ n, ts.follow path = some n → n.Grows (f n)) :
    ts.Grows (ts.modifyAt f path) := by
  have hcarries : ts.Carries (fun att => ∃ height, att = .bitcoin height) (ts.modifyAt f path) := by
    refine carries_modifyAt fun n hn path' m hm => ?_
    obtain ⟨m', hm', hkeep⟩ := h n hn path' m hm
    refine ⟨m', hm', ?_⟩
    rintro _ hatt ⟨height, rfl⟩
    exact hkeep height hatt
  intro path' n hn
  obtain ⟨n', hn', hkeep⟩ := hcarries path' n hn
  exact ⟨n', hn', fun height hheight => hkeep _ hheight ⟨height, rfl⟩⟩

theorem extends_modifyAt {path : List O} (h : ∀ n, ts.follow path = some n → n.Extends (f n)) :
    ts.Extends (ts.modifyAt f path) := by
  have hcarries : ts.Carries (fun _ => True) (ts.modifyAt f path) := by
    refine carries_modifyAt fun n hn path' m hm => ?_
    obtain ⟨m', hm', hkeep⟩ := h n hn path' m hm
    exact ⟨m', hm', fun _ hatt _ => hkeep hatt⟩
  intro path' n hn
  obtain ⟨n', hn', hkeep⟩ := hcarries path' n hn
  exact ⟨n', hn', fun att hatt => hkeep att hatt trivial⟩

/-- What is discarded at one place is kept at the others. -/
theorem follow_discardAt (att : Attestation) {path path' : List O} (hne : path' ≠ path) {n : OpTree O}
    (hn : ts.follow path' = some n) :
    ∃ n', (ts.modifyAt (discard att) path).follow path' = some n' ∧ n'.attestations = n.attestations := by
  induction path generalizing ts path' with
  | nil =>
    cases path' with
    | nil => exact absurd rfl hne
    | cons op' path' => exact ⟨n, hn, rfl⟩
  | cons op path ih =>
    cases path' with
    | nil =>
      cases hn
      exact ⟨_, rfl, rfl⟩
    | cons op' path' =>
      obtain ⟨child, hchild, hn⟩ := Option.bind_eq_some_iff.mp hn
      rw [follow_cons_modifyAt, hchild, Option.bind_some]
      split
      · next hop =>
        subst hop
        exact ih (fun h => hne (h ▸ rfl)) hn
      · exact ⟨n, hn, rfl⟩

end OpTree

/-- A message with its tree: each operation makes the next message of the last. -/
structure Timestamp (O : Type) where
  msg : Bytes
  tree : OpTree O

inductive HashOp where
  | sha256
  | other (tag : UInt8)
  deriving DecidableEq, Repr

/-- A detached file: the digest of what was stamped, and its timestamp. -/
structure DetachedFile (O : Type) where
  fileHashOp : HashOp
  fileDigest : Bytes
  timestamp : Timestamp O

/-- The operations of the package; none is an exception. -/
structure Package (O Header : Type) where
  apply : O → Bytes → Bytes
  deserialize : Bytes → Option (DetachedFile O)
  serialize : DetachedFile O → Option Bytes
  /-- `Timestamp.deserialize` of a calendar's reply for a message, and then `assert_eof`. -/
  deserializeReply : Bytes → Bytes → Option (OpTree O)
  /-- `merge` of another timestamp of the same message. -/
  merge : OpTree O → OpTree O → OpTree O
  allAttestations : Timestamp O → List (Bytes × Attestation)
  /-- `verify_against_blockheader` of the attestation of a height; the block's time. -/
  verifyAgainstBlockheader : Nat → Bytes → Header → Option Int

/-- The message that operations make of a message. -/
def Package.messageAt {O Header : Type} (ots : Package O Header) (msg : Bytes) (path : List O) : Bytes :=
  path.foldl (fun msg op => ots.apply op msg) msg

/-- What the code relies on. -/
structure Package.Documented {O Header : Type} [DecidableEq O] (ots : Package O Header) : Prop where
  /-- A file that is written and read again has the same attestations. -/
  serialize_attestations : ∀ file data file', ots.serialize file = some data → ots.deserialize data = some file' →
    ∀ x, x ∈ ots.allAttestations file'.timestamp ↔ x ∈ ots.allAttestations file.timestamp
  /-- Merging adds all operations and attestations of the other timestamp of the message, and removes none. -/
  merge_extends : ∀ ts other : OpTree O, ts.Extends (ots.merge ts other) ∧ other.Extends (ots.merge ts other)
  /-- The attestations of a timestamp are those of it and of all that its operations lead to. -/
  mem_allAttestations : ∀ (ts : Timestamp O) msg att, (msg, att) ∈ ots.allAttestations ts ↔
    ∃ path n, ts.tree.follow path = some n ∧ ots.messageAt ts.msg path = msg ∧ att ∈ n.attestations

end OpenTimestamps
end AsymmetricCommittee
