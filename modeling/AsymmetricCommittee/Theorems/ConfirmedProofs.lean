import AsymmetricCommittee.Evaluation.Anchoring
import AsymmetricCommittee.Lib.Except

/-! Which proofs `confirm_bitcoin` accepts: those that bind the digest and have a Bitcoin attestation that verifies.
    An upgrade loses no Bitcoin attestation, and adds those of the replies that it merges. -/

namespace AsymmetricCommittee
namespace Anchoring
open OpenTimestamps

variable {O Header : Type} [DecidableEq O] {ots : Package O Header} {chain : Nat → Header} {proof : Bytes}
  {sha256 : Sha256Hex}

/-- The attestation is of a block of the chain, and verifies. -/
def Verifies (ots : Package O Header) (chain : Nat → Header) (x : Bytes × Attestation) : Prop :=
  ∃ height, x.2 = .bitcoin height ∧ (ots.verifyAgainstBlockheader height x.1 (chain height)).isSome

/-- Some attestation of the timestamp verifies. -/
def HasVerified (ots : Package O Header) (chain : Nat → Header) (ts : Timestamp O) : Prop :=
  ∃ x ∈ ots.allAttestations ts, Verifies ots chain x

omit [DecidableEq O] in
theorem HasVerified.mono {ts ts' : Timestamp O} (h : HasVerified ots chain ts)
    (hmem : ∀ msg height, (msg, .bitcoin height) ∈ ots.allAttestations ts → (msg, .bitcoin height) ∈ ots.allAttestations ts') :
    HasVerified ots chain ts' := by
  obtain ⟨⟨msg, att⟩, hx, height, rfl, hverified⟩ := h
  exact ⟨(msg, .bitcoin height), hmem msg height hx, height, rfl, hverified⟩

theorem mem_of_grows (hots : ots.Documented) {msg msg' : Bytes} {height : Nat} {ts ts' : OpTree O}
    (hx : (msg', .bitcoin height) ∈ ots.allAttestations ⟨msg, ts⟩) (hgrows : ts.Grows ts') :
    (msg', .bitcoin height) ∈ ots.allAttestations ⟨msg, ts'⟩ := by
  obtain ⟨path, n, hn, hmsg, hatt⟩ := (hots.mem_allAttestations ⟨msg, ts⟩ msg' _).mp hx
  obtain ⟨n', hn', hkeep⟩ := hgrows path n hn
  exact (hots.mem_allAttestations ⟨msg, ts'⟩ _ _).mpr ⟨path, n', hn', hmsg, hkeep height hatt⟩

theorem HasVerified.grows (hots : ots.Documented) {msg : Bytes} {ts ts' : OpTree O} (h : HasVerified ots chain ⟨msg, ts⟩)
    (hgrows : ts.Grows ts') : HasVerified ots chain ⟨msg, ts'⟩ :=
  h.mono fun _ _ hx => mem_of_grows hots hx hgrows

/-- What is below a place of a timestamp is in the timestamp. -/
theorem mem_of_follow (hots : ots.Documented) {msg msg' : Bytes} {att : Attestation} {ts n : OpTree O} {path : List O}
    (hn : ts.follow path = some n) (hx : (msg', att) ∈ ots.allAttestations ⟨ots.messageAt msg path, n⟩) :
    (msg', att) ∈ ots.allAttestations ⟨msg, ts⟩ := by
  obtain ⟨path', n', hn', hmsg, hatt⟩ := (hots.mem_allAttestations ⟨_, n⟩ msg' att).mp hx
  refine (hots.mem_allAttestations ⟨msg, ts⟩ msg' att).mpr ⟨path ++ path', n', ?_, ?_, hatt⟩
  · rw [OpTree.follow_append, hn]
    exact hn'
  · rw [Package.messageAt, List.foldl_append]
    exact hmsg

/-! ### Confirmation -/

omit [DecidableEq O] in
theorem deserialize_of_loads {file : DetachedFile O} (h : loads ots proof = .ok file) :
    ots.deserialize proof = some file := by
  unfold loads at h
  split at h
  · cases h
  · split at h
    · cases h
    · next hfile =>
      cases h
      exact hfile

omit [DecidableEq O] in
theorem loads_of_checkBinding {status : ProofStatus} (h : checkBinding ots proof sha256 = .ok status) :
    ∃ file, loads ots proof = .ok file := by
  unfold checkBinding at h
  split at h
  · cases h
  · next file hfile => exact ⟨file, hfile⟩

variable (ots chain) in
omit [DecidableEq O] in
theorem confirmStep_ok (best : Option BitcoinConfirmation) (x : Bytes × Attestation) :
    ∃ best', confirmStep (m := Except AnchorError) ots (fun height => .ok (chain height)) best x = .ok best' ∧
      (best'.isSome ↔ best.isSome ∨ Verifies ots chain x) := by
  obtain ⟨msg, att⟩ := x
  cases att with
  | pending uri => exact ⟨best, rfl, by simp [Verifies]⟩
  | unknown tag payload => exact ⟨best, rfl, by simp [Verifies]⟩
  | bitcoin height =>
    cases hverify : ots.verifyAgainstBlockheader height msg (chain height) with
    | none =>
      refine ⟨best, ?_, by simp [Verifies, hverify]⟩
      simp only [confirmStep, bind, Except.bind, hverify, pure, Except.pure]
    | some blockTime =>
      refine ⟨some (lowest best ⟨height, blockTime⟩), ?_, by simp [Verifies, hverify]⟩
      simp only [confirmStep, bind, Except.bind, hverify, pure, Except.pure]

variable (ots chain) in
omit [DecidableEq O] in
theorem confirmSteps_ok (best : Option BitcoinConfirmation) (l : List (Bytes × Attestation)) :
    ∃ best', l.foldlM (confirmStep (m := Except AnchorError) ots fun height => .ok (chain height)) best = .ok best' ∧
      (best'.isSome ↔ best.isSome ∨ ∃ x ∈ l, Verifies ots chain x) := by
  induction l generalizing best with
  | nil => exact ⟨best, rfl, by simp⟩
  | cons x l ih =>
    obtain ⟨best₁, hstep, hsome⟩ := confirmStep_ok ots chain best x
    obtain ⟨best₂, hrest, hsome'⟩ := ih best₁
    refine ⟨best₂, ?_, ?_⟩
    · rw [List.foldlM_cons, hstep]
      exact hrest
    · rw [hsome', hsome]
      simp [or_assoc]

omit [DecidableEq O] in
theorem accepted_iff : Accepted ots chain proof sha256 ↔
    (∃ status, checkBinding ots proof sha256 = .ok status) ∧
      ∃ file, loads ots proof = .ok file ∧ HasVerified ots chain file.timestamp := by
  unfold Accepted confirmBitcoin
  cases hbinding : checkBinding ots proof sha256 with
  | error defect => simp [binding, bind, Except.bind, throw, throwThe, MonadExceptOf.throw]
  | ok status =>
    cases hfile : loads ots proof with
    | error defect => simp [binding, bind, Except.bind, pure, Except.pure, throw, throwThe, MonadExceptOf.throw]
    | ok file =>
      obtain ⟨best, hfold, hsome⟩ := confirmSteps_ok ots chain none
        (ots.allAttestations file.timestamp)
      simp only [binding, bind, Except.bind, pure, Except.pure, hfold]
      cases best with
      | none => simpa [HasVerified, throw, throwThe, MonadExceptOf.throw] using hsome
      | some best => simpa [HasVerified] using hsome

omit [DecidableEq O] in
theorem accepted_of_bound (hbinding : ∃ status, checkBinding ots proof sha256 = .ok status) {file : DetachedFile O}
    (hfile : loads ots proof = .ok file) (h : HasVerified ots chain file.timestamp) : Accepted ots chain proof sha256 :=
  accepted_iff.mpr ⟨hbinding, file, hfile, h⟩

/-! ### Merging -/

omit [DecidableEq O] in
theorem parseFragment_msg {data msg : Bytes} {fragment : Timestamp O} (h : parseFragment ots data msg = .ok fragment) :
    fragment.msg = msg := by
  unfold parseFragment at h
  split at h
  · cases h
  · split at h
    · cases h
    · split at h
      · cases h
      · cases h
        rfl

/-- Nothing confirmed is lost by a merge. -/
theorem grows_mergeReply (hots : ots.Documented) {att : Attestation} (hatt : att.isBitcoin = false) (path : List O)
    (fragment : Timestamp O) (ts : OpTree O) : ts.Grows (mergeReply ots path att fragment ts) := by
  have hmerge : ts.Grows (ts.modifyAt (fun n => ots.merge n fragment.tree) path) :=
    OpTree.grows_modifyAt fun n _ => (hots.merge_extends n fragment.tree).1.grows
  unfold mergeReply
  split
  · exact hmerge.trans (OpTree.grows_modifyAt fun n _ => OpTree.grows_discard hatt n)
  · exact hmerge

/-- A reply for the message of a place is merged there. -/
theorem mem_mergeReply (hots : ots.Documented) {msg msg' : Bytes} {height : Nat} {ts : OpTree O} {fragment : Timestamp O}
    {path : List O} {att : Attestation} (hatt : att.isBitcoin = false) (hnode : (ts.follow path).isSome)
    (hmsg : fragment.msg = ots.messageAt msg path) (hx : (msg', .bitcoin height) ∈ ots.allAttestations fragment) :
    (msg', .bitcoin height) ∈ ots.allAttestations ⟨msg, mergeReply ots path att fragment ts⟩ := by
  obtain ⟨node, hnode⟩ := Option.isSome_iff_exists.mp hnode
  -- the merged node has all of the reply
  have hmerged : (msg', .bitcoin height) ∈
      ots.allAttestations ⟨msg, ts.modifyAt (fun n => ots.merge n fragment.tree) path⟩ := by
    have hn : (ts.modifyAt (fun n => ots.merge n fragment.tree) path).follow path =
        some (ots.merge node fragment.tree) := by
      rw [OpTree.follow_modifyAt, hnode, Option.map_some]
    refine mem_of_follow hots hn ?_
    rw [← hmsg]
    exact mem_of_grows hots hx (hots.merge_extends node fragment.tree).2.grows
  unfold mergeReply
  split
  · exact mem_of_grows hots hmerged (OpTree.grows_modifyAt fun n _ => OpTree.grows_discard hatt n)
  · exact hmerged

theorem hasVerified_mergeReply (hots : ots.Documented) {msg : Bytes} {ts : OpTree O} {fragment : Timestamp O}
    {path : List O} {att : Attestation} (hatt : att.isBitcoin = false) (hnode : (ts.follow path).isSome)
    (hmsg : fragment.msg = ots.messageAt msg path) (h : HasVerified ots chain fragment) :
    HasVerified ots chain ⟨msg, mergeReply ots path att fragment ts⟩ :=
  h.mono fun _ _ hx => mem_mergeReply hots hatt hnode hmsg hx

/-- A pending attestation is kept until its own place is merged. -/
theorem pending_mergeReply (hots : ots.Documented) {ts : OpTree O} {fragment : Timestamp O} {path path' : List O}
    (hne : path' ≠ path) (att : Attestation) {att' : Attestation} {n : OpTree O} (hn : ts.follow path' = some n)
    (hatt : att' ∈ n.attestations) :
    ∃ n', (mergeReply ots path att fragment ts).follow path' = some n' ∧ att' ∈ n'.attestations := by
  have hmerge : ts.Extends (ts.modifyAt (fun n => ots.merge n fragment.tree) path) :=
    OpTree.extends_modifyAt fun n _ => (hots.merge_extends n fragment.tree).1
  obtain ⟨n₁, hn₁, hsub⟩ := hmerge path' n hn
  unfold mergeReply
  split
  · obtain ⟨n₂, hn₂, hsame⟩ := OpTree.follow_discardAt att hne hn₁
    exact ⟨n₂, hn₂, hsame ▸ hsub hatt⟩
  · exact ⟨n₁, hn₁, hsub hatt⟩

end Anchoring
end AsymmetricCommittee
