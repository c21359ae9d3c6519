import AsymmetricCommittee.Orchestration.AnchorStage
import AsymmetricCommittee.Theorems.CanonicalCommitment
import AsymmetricCommittee.Theorems.ConfirmedProofs

/-! Proof upgrades are kept. Upgrade passes and anchoring stages read an anchor, ask the calendars and write it back
    in separate steps, and a write replaces the stored proof. While no party writes a proof that it has not seen
    confirmed over one that is, the proof of every anchor with a confirmation time is accepted, and an accepted
    proof is only replaced by another. -/

namespace AsymmetricCommittee
namespace AnchorStage
open OpenTimestamps Anchoring Store

/-- What the parties rely on: digests, texts, the OpenTimestamps package and the chain of block headers. -/
structure Setting (K Header O : Type) [Field K] [LinearOrder K] where
  sha256 : String → Sha256Hex
  texts : Json.FloatText K
  json : AuditJson K
  codec : StoreCodec
  message : AnchorError → String
  ots : Package O Header
  chain : Nat → Header

variable {K V Header O : Type} [Field K] [LinearOrder K] (e : Setting K Header O)

/-- The run tables, and the runs of which each party has seen a proof that is accepted: in what it read last, or in
    a reply since. -/
structure AnchorWorld (K V : Type) [Field K] [LinearOrder K] where
  db : RunTables K V
  confirmed : Nat → Set UUID

/-- `confirm_bitcoin` accepts the proof for the digest. -/
abbrev Setting.Accepts (proof : Bytes) (sha256 : Sha256Hex) : Prop := Accepted e.ots e.chain proof sha256

/-! ### The surroundings -/

/-- The runs of which an anchor has an accepted proof. -/
def confirmedAmong (anchors : List CommitmentAnchor) : Set UUID :=
  { id | ∃ a ∈ anchors, a.runId = id ∧ ∃ proof ∈ a.otsProof, e.Accepts proof a.sha256 }

/-- The run, when its material has an accepted proof. -/
def confirmedIn (runId : UUID) (material : Option (CommitmentMaterial K)) : Set UUID :=
  { id | id = runId ∧ ∃ m ∈ material, ∃ a ∈ m.anchor, ∃ proof ∈ a.otsProof, e.Accepts proof m.storedSha256 }

/-- A calendar's reply for a message brings an attestation that verifies. -/
def Confirms (data msg : Bytes) : Prop :=
  ∃ fragment, parseFragment e.ots data msg = .ok fragment ∧ HasVerified e.ots e.chain fragment

/-- The runs of which the party has seen an accepted proof, after a reply. -/
def seen : (c : AnchorCall) → Except AnchorError (c.Result K Header) → Set UUID → Set UUID
  | .anchorsAwaitingConfirmation, .ok anchors, _ => confirmedAmong e anchors
  | .loadCommitmentMaterial runId, .ok material, _ => confirmedIn e runId material
  | .fetch runId _ msg, .ok (some data), S => { id | id ∈ S ∨ (id = runId ∧ Confirms e data msg) }
  | .stamp runId sha256, .ok proof, S => { id | id ∈ S ∨ (id = runId ∧ e.Accepts proof sha256) }
  | _, _, S => S

/-- What a call does to the tables when it does it. -/
def Written : AnchorCall → RunTables K V → RunTables K V → Prop
  | .recordAnchor anchor, db, db' => upsertAnchor db anchor = .ok db'
  | .markAnchored anchor, db, db' => ∃ moved, advanceToAnchored db anchor = .ok (db', moved)
  | .recordDlq record, db, db' => db' = insertDlqRecords e.sha256 e.json db [record]
  | _, db, db' => db' = db

/-- What a call may return. -/
def Returned : (c : AnchorCall) → RunTables K V → c.Result K Header → Prop
  | .loadRun runId, db, run => loadRun e.codec db runId = .ok run
  | .loadCommitmentMaterial runId, db, material => loadCommitmentMaterial e.codec db runId = .ok material
  | .anchorsAwaitingConfirmation, db, anchors => anchors = Store.anchorsAwaitingConfirmation db
  | .markAnchored anchor, db, moved => ∃ db', advanceToAnchored db anchor = .ok (db', moved)
  | .header height, _, header => header = e.chain height
  | _, _, _ => True

/-- A call is carried out and returns, or fails before or after it was carried out. -/
def Answers (n : Nat) (c : AnchorCall) (w : AnchorWorld K V) (reply : Except AnchorError (c.Result K Header))
    (w' : AnchorWorld K V) : Prop :=
  w'.confirmed = Function.update w.confirmed n (seen e c reply (w.confirmed n)) ∧
    match reply with
    | .ok a => Written e c w.db w'.db ∧ Returned e c w.db a
    | .error _ => w'.db = w.db ∨ Written e c w.db w'.db

/-- The other writers of the run tables. -/
inductive Elsewhere (w : AnchorWorld K V) : AnchorWorld K V → Prop
  | write (op : Sink.Op K V) (hrecord : ∀ a, op ≠ .recordAnchor a) (hmark : ∀ a, op ≠ .markAnchored a) :
      Elsewhere w { w with db := Sink.step e.sha256 e.json w.db op }

/-- An upgrade pass, with or without a header source, or the anchoring of a run. -/
inductive Party [DecidableEq O] : Program (anchorCalls K Header) Unit → Prop
  | upgradeAll (headers : Bool) : Party ((upgradeAll (K := K) e.ots headers).start ()).void
  | anchorRun (runId : UUID) : Party ((anchorRun e.sha256 e.texts e.ots e.message runId).start ()).void

def dynamics [DecidableEq O] : Dynamics (anchorCalls K Header) (AnchorWorld K V) where
  moves := Elsewhere e
  answers := Answers e
  starts _ _ := Party e

/-- The anchor that a call writes. -/
def written : AnchorCall → Option CommitmentAnchor
  | .recordAnchor anchor => some anchor
  | .markAnchored anchor => some anchor
  | _ => none

/-- A write that meets a stored proof that is accepted comes from a party that has seen an accepted proof of the
    run. -/
def WritesInformed (n : Nat) (c : AnchorCall) (w : AnchorWorld K V) : Prop :=
  ∀ anchor ∈ written c, ∀ stored ∈ w.db.anchor? anchor.runId, ∀ proof ∈ stored.otsProof,
    e.Accepts proof stored.sha256 → anchor.runId ∈ w.confirmed n

/-! ### What is kept -/

/-- An anchor with a confirmation time has an accepted proof. -/
structure Kept (db : RunTables K V) : Prop where
  unique : KeyedTable.Unique CommitmentAnchor.runId db.commitmentAnchors
  verified : ∀ a ∈ db.commitmentAnchors, a.verifiedAt.isSome → ∃ proof ∈ a.otsProof, e.Accepts proof a.sha256

/-- Where there was an accepted proof there still is one. -/
def NeverReplaced (db db' : RunTables K V) : Prop :=
  ∀ a ∈ db.commitmentAnchors, ∀ proof ∈ a.otsProof, e.Accepts proof a.sha256 →
    ∃ a' ∈ db'.commitmentAnchors, a'.runId = a.runId ∧ a'.sha256 = a.sha256 ∧
      ∃ proof' ∈ a'.otsProof, e.Accepts proof' a'.sha256

/-- What a party may present for storage. -/
def Presents (S : Set UUID) (anchor : CommitmentAnchor) : Prop :=
  ∃ proof, anchor.otsProof = some proof ∧ (anchor.verifiedAt.isSome → e.Accepts proof anchor.sha256) ∧
    (anchor.runId ∈ S → e.Accepts proof anchor.sha256)

variable {e} {db db' : RunTables K V}

theorem Kept.congr (h : Kept e db) (hdb : db'.commitmentAnchors = db.commitmentAnchors) : Kept e db' := by
  constructor
  · rw [hdb]
    exact h.unique
  · rw [hdb]
    exact h.verified

theorem NeverReplaced.of_eq (hdb : db'.commitmentAnchors = db.commitmentAnchors) : NeverReplaced e db db' := by
  intro a ha proof hproof haccepts
  exact ⟨a, hdb ▸ ha, rfl, rfl, proof, hproof, haccepts⟩

/-- An anchor without an accepted proof is still awaiting its confirmation. -/
theorem Kept.awaiting (h : Kept e db) {a : CommitmentAnchor} (ha : a ∈ db.commitmentAnchors) {proof : Bytes}
    (hproof : proof ∈ a.otsProof) (hunconfirmed : ¬ e.Accepts proof a.sha256) :
    a ∈ Store.anchorsAwaitingConfirmation db := by
  have hverified : a.verifiedAt = none := by
    cases hv : a.verifiedAt with
    | none => rfl
    | some at_ =>
      obtain ⟨proof', hproof', haccepts⟩ := h.verified a ha (by rw [hv]; rfl)
      rw [Option.mem_unique hproof hproof'] at hunconfirmed
      exact absurd haccepts hunconfirmed
  rw [Store.anchorsAwaitingConfirmation, List.mem_insertionSort, List.mem_filter]
  refine ⟨ha, ?_⟩
  rw [hverified, Option.mem_def.mp hproof]
  rfl

/-! ### One write -/

/-- A presented anchor in the place of the stored one of its run. -/
theorem Kept.modify (h : Kept e db) {S : Set UUID} {anchor stored : CommitmentAnchor} (hpresents : Presents e S anchor)
    (hstored : db.anchor? anchor.runId = some stored) (hsha : stored.sha256 = anchor.sha256)
    (hinformed : ∀ proof ∈ stored.otsProof, e.Accepts proof stored.sha256 → anchor.runId ∈ S)
    (hdb : db'.commitmentAnchors =
      KeyedTable.modify CommitmentAnchor.runId db.commitmentAnchors anchor.runId (upgradeAnchor anchor)) :
    Kept e db' ∧ NeverReplaced e db db' := by
  obtain ⟨proof, hproof, hverified, hseen⟩ := hpresents
  have hkey : ∀ r, CommitmentAnchor.runId (upgradeAnchor anchor r) = r.runId := fun _ => rfl
  have hots : (upgradeAnchor anchor stored).otsProof = some proof := by
    simp only [upgradeAnchor, hproof, Option.some_or]
  -- the only row of the run is the stored one
  have honly : ∀ r ∈ db.commitmentAnchors, r.runId = anchor.runId → r = stored := by
    intro r hr hrun
    have hr' : db.anchor? anchor.runId = some r := (KeyedTable.find_eq_some h.unique).mpr ⟨hr, hrun⟩
    rw [hstored] at hr'
    exact (Option.some.inj hr').symm
  constructor
  · constructor
    · rw [hdb]
      exact KeyedTable.unique_modify hkey h.unique
    · intro a ha hconfirmed
      rw [hdb, KeyedTable.modify, List.mem_map] at ha
      obtain ⟨r, hr, hra⟩ := ha
      split at hra
      · next hrun =>
        rw [honly r hr hrun] at hra
        subst hra
        refine ⟨proof, hots, ?_⟩
        show e.Accepts proof stored.sha256
        rw [hsha]
        cases hat : anchor.verifiedAt with
        | some at_ => exact hverified (by rw [hat]; rfl)
        | none =>
          simp only [upgradeAnchor, hat, Option.none_or] at hconfirmed
          obtain ⟨old, hold, haccepts⟩ := h.verified stored (KeyedTable.find_some hstored).1 hconfirmed
          exact hseen (hinformed old hold haccepts)
      · subst hra
        exact h.verified r hr hconfirmed
  · intro a ha old hold haccepts
    by_cases hrun : a.runId = anchor.runId
    · obtain rfl := honly a ha hrun
      refine ⟨upgradeAnchor anchor a, ?_, rfl, rfl, proof, hots, ?_⟩
      · rw [hdb, KeyedTable.modify, List.mem_map]
        exact ⟨a, ha, if_pos hrun⟩
      · show e.Accepts proof a.sha256
        rw [hsha]
        exact hseen (hinformed old hold haccepts)
    · refine ⟨a, ?_, rfl, rfl, old, hold, haccepts⟩
      rw [hdb, KeyedTable.modify, List.mem_map]
      exact ⟨a, ha, if_neg hrun⟩

theorem Kept.upsert (h : Kept e db) {S : Set UUID} {anchor : CommitmentAnchor} (hpresents : Presents e S anchor)
    (hinformed : ∀ stored ∈ db.anchor? anchor.runId, ∀ proof ∈ stored.otsProof,
      e.Accepts proof stored.sha256 → anchor.runId ∈ S)
    (hupsert : upsertAnchor db anchor = .ok db') : Kept e db' ∧ NeverReplaced e db db' := by
  unfold upsertAnchor at hupsert
  cases hstored : db.anchor? anchor.runId with
  | none =>
    simp only [hstored] at hupsert
    split at hupsert
    · cases hupsert
      obtain ⟨proof, hproof, hverified, -⟩ := hpresents
      refine ⟨⟨?_, ?_⟩, ?_⟩
      · have hnew := KeyedTable.unique_insertNew h.unique anchor
        rw [KeyedTable.insertNew_of_none hstored] at hnew
        exact hnew
      · intro a ha hconfirmed
        rcases List.mem_append.mp ha with ha | ha
        · exact h.verified a ha hconfirmed
        · rw [List.mem_singleton.mp ha] at hconfirmed ⊢
          exact ⟨proof, hproof, hverified hconfirmed⟩
      · intro a ha proof' hproof' haccepts
        exact ⟨a, List.mem_append_left _ ha, rfl, rfl, proof', hproof', haccepts⟩
    · cases hupsert
  | some stored =>
    simp only [hstored] at hupsert
    split at hupsert
    · next hsha =>
      cases hupsert
      exact h.modify hpresents hstored hsha (hinformed stored hstored) rfl
    · cases hupsert

/-- What a call writes keeps the anchors, when it presents what its party has seen and is informed. -/
theorem Kept.written (h : Kept e db) {S : Set UUID} {c : AnchorCall}
    (hpresents : ∀ anchor ∈ written c, Presents e S anchor)
    (hinformed : ∀ anchor ∈ AnchorStage.written c, ∀ stored ∈ db.anchor? anchor.runId, ∀ proof ∈ stored.otsProof,
      e.Accepts proof stored.sha256 → anchor.runId ∈ S)
    (hwritten : Written e c db db') : Kept e db' ∧ NeverReplaced e db db' := by
  cases c with
  | recordAnchor anchor => exact h.upsert (hpresents anchor rfl) (hinformed anchor rfl) hwritten
  | markAnchored anchor =>
    obtain ⟨moved, hmoved⟩ := hwritten
    obtain ⟨db₁, hupsert, rfl⟩ := Sink.advanceToAnchored_eq_ok hmoved
    obtain ⟨hkept, hnever⟩ := h.upsert (hpresents anchor rfl) (hinformed anchor rfl) hupsert
    exact ⟨hkept.congr rfl, hnever⟩
  | recordDlq record =>
    obtain rfl := hwritten
    exact ⟨h.congr rfl, .of_eq rfl⟩
  | _ =>
    obtain rfl := hwritten
    exact ⟨h, .of_eq rfl⟩

/-- No other writer touches the anchors. -/
theorem anchors_elsewhere {w w' : AnchorWorld K V} (h : Elsewhere e w w') :
    w'.db.commitmentAnchors = w.db.commitmentAnchors ∧ w'.confirmed = w.confirmed := by
  obtain ⟨op, hrecord, hmark⟩ := h
  refine ⟨?_, rfl⟩
  show (Sink.step e.sha256 e.json w.db op).commitmentAnchors = w.db.commitmentAnchors
  rw [Sink.step]
  cases hperform : Sink.perform e.sha256 e.json w.db op with
  | error _ => rfl
  | ok db' =>
    cases op with
    | flushStep s => exact (Sink.flushStep_eq_ok hperform).anchors
    | recordAnchor anchor => exact absurd rfl (hrecord anchor)
    | markAnchored anchor => exact absurd rfl (hmark anchor)
    | markExecuted runId endedAt =>
      cases hperform
      rfl
    | recordHalt event =>
      obtain ⟨⟨db₁, moved⟩, hhalt, rfl⟩ := Except.map_eq_ok.mp hperform
      show db₁.commitmentAnchors = _
      rw [(Sink.recordHalt_eq_ok hhalt).frame]
    | resetRun runId actor reason now => exact (Sink.resetRun_eq_ok hperform).anchors

/-! ### What a party does -/

variable (e) in
/-- A party may write what it has seen; the others do not see for it. -/
def party (n : Nat) : Contract (anchorCalls K Header) (AnchorWorld K V) where
  inv w := Kept e w.db
  rely w w' := w'.confirmed n = w.confirmed n
  allowed c w := ∀ anchor ∈ AnchorStage.written c, Presents e (w.confirmed n) anchor
  answers := Answers e n
  rely_refl _ := rfl
  rely_trans _ _ _ h h' := h'.trans h

variable (e) in
/-- The runs of which the party has seen an accepted proof. -/
def sight (n : Nat) : View (party (V := V) e n) (Set UUID) := ⟨fun w => w.confirmed n, fun _ _ h => h⟩

variable {n : Nat} {S : Set UUID} {α : Type}

theorem ends_call {c : AnchorCall} {Q : c.Result K Header → Unit → Set UUID → Prop} {E : Unit → Set UUID → Prop}
    (hpresents : ∀ anchor ∈ AnchorStage.written c, Presents e S anchor)
    (hok : ∀ (db : RunTables K V) a, Kept e db → Returned e c db a → Q a () (seen e c (.ok a) S))
    (herror : ∀ er, E () (seen e c (.error er) S)) : (call c).Ends (sight (V := V) e n) () S Q E := by
  rintro w hi rfl
  have hask : (Act.ask (I := anchorCalls K Header) c : Steps K Header _).Meets (party e n) ()
      (fun x _ w => ∃ reply, x = .ok reply ∧ Act.post (fun a _ w => Q a () (w.confirmed n))
        (fun _ w => E () (w.confirmed n)) reply () w) w := by
    intro w₁ hr₁ hi₁
    have hsame : w₁.confirmed n = w.confirmed n := hr₁
    refine ⟨?_, fun reply w₂ hans hi₂ w₃ hr₃ hi₃ => ⟨reply, rfl, ?_⟩⟩
    · show ∀ anchor ∈ AnchorStage.written c, Presents e (w₁.confirmed n) anchor
      rw [hsame]
      exact hpresents
    · have hseen : w₃.confirmed n = seen e c reply (w.confirmed n) := by
        rw [show w₃.confirmed n = w₂.confirmed n from hr₃, hans.1, Function.update_self, hsame]
      cases reply with
      | error er =>
        show E () (w₃.confirmed n)
        rw [hseen]
        exact herror er
      | ok a =>
        show Q a () (w₃.confirmed n)
        rw [hseen]
        exact hok w₁.db a hi₁ hans.2.2
  refine hask.bind ?_ ?_
  · rintro reply s w hi ⟨_, hreply, hpost⟩
    cases hreply
    cases reply with
    | ok a => exact Act.Ends.pure (v := sight e n) hpost w hi rfl
    | error er => exact Act.Ends.throw (v := sight e n) hpost w hi rfl
  · rintro er s w hi ⟨_, hreply, -⟩
    cases hreply

theorem ends_binding {x : Except BindingDefect α} :
    (binding x : Steps K Header α).Ends (sight (V := V) e n) () S (fun a _ S' => x = .ok a ∧ S' = S) (fun _ S' => S' = S) := by
  cases x with
  | ok a => exact .pure ⟨rfl, rfl⟩
  | error defect => exact .throw rfl

/-- A confirmation is one of the chain's headers. -/
theorem ends_confirmBitcoin {proof : Bytes} {sha256 : Sha256Hex} :
    (confirmBitcoin e.ots proof sha256 fun height => (call (.header height) : Steps K Header Header)).Ends
      (sight (V := V) e n) () S (fun _ _ S' => e.Accepts proof sha256 ∧ S' = S) (fun _ S' => S' = S) := by
  refine ends_binding.bind ?_
  rintro status - S' ⟨hbinding, rfl⟩
  refine ends_binding.bind ?_
  rintro file - S ⟨hfile, rfl⟩
  have hsteps : ((e.ots.allAttestations file.timestamp).foldlM
      (confirmStep e.ots fun height => (call (.header height) : Steps K Header Header)) none).Ends (sight (V := V) e n) () S
      (fun best _ S' => (best.isSome → HasVerified e.ots e.chain file.timestamp) ∧ S' = S) (fun _ S' => S' = S) := by
    refine (Act.Ends.foldlM (P := fun best rest _ S' => S' = S ∧ rest ⊆ e.ots.allAttestations file.timestamp ∧
      (best.isSome → HasVerified e.ots e.chain file.timestamp)) ?_ ⟨rfl, List.Subset.refl _, nofun⟩).mono
      (fun best _ _ h => ⟨h.2.2, h.1⟩) fun _ _ h => h
    rintro best ⟨msg, att⟩ rest - S' ⟨rfl, hrest, hbest⟩
    obtain ⟨hmem, htail⟩ := List.cons_subset.mp hrest
    cases att with
    | pending uri => exact .pure ⟨rfl, htail, hbest⟩
    | unknown tag payload => exact .pure ⟨rfl, htail, hbest⟩
    | bitcoin height =>
      refine (ends_call (c := .header height)
        (Q := fun (h : Header) _ S'' => h = e.chain height ∧ S'' = S') nofun (fun _ h _ hh => ⟨hh, rfl⟩) fun _ => rfl).bind ?_
      rintro _ - _ ⟨rfl, rfl⟩
      cases hverify : e.ots.verifyAgainstBlockheader height msg (e.chain height) with
      | none => exact .pure ⟨rfl, htail, hbest⟩
      | some blockTime =>
        refine .pure ⟨rfl, htail, fun _ => ⟨(msg, .bitcoin height), hmem, height, rfl, ?_⟩⟩
        rw [hverify]
        rfl
  refine hsteps.bind ?_
  rintro best - _ ⟨hbest, rfl⟩
  cases best with
  | none => exact .throw rfl
  | some best => exact .pure ⟨accepted_of_bound ⟨status, hbinding⟩ hfile (hbest rfl), rfl⟩

/-! ### An upgrade pass -/

section Upgrade
variable [DecidableEq O] {runId : UUID} {S₀ : Set UUID} {msg : Bytes} {ts₀ : OpTree O}

variable (e) in
/-- The tree of a message in the middle of an upgrade for a run: what the party has seen of the run is in it. -/
structure Upgrading (runId : UUID) (S₀ : Set UUID) (msg : Bytes) (ts₀ : OpTree O) (acc : OpTree O × Bool) (S : Set UUID) :
    Prop where
  others : ∀ id ∈ S, id ≠ runId → id ∈ S₀
  confirmed : runId ∈ S → HasVerified e.ots e.chain ⟨msg, acc.1⟩
  unchanged : acc.2 = false → acc.1 = ts₀

theorem ends_upgradeAttestation (hots : e.ots.Documented) {path : List O} {acc : OpTree O × Bool}
    {att : Attestation} (h : Upgrading e runId S₀ msg ts₀ acc S) (hnode : (acc.1.follow path).isSome) :
    (upgradeAttestation e.ots (fun uri commitment => (call (.fetch runId uri commitment) : Steps K Header (Option Bytes)))
      path (e.ots.messageAt msg path) acc att).Ends (sight (V := V) e n) () S
      (fun acc _ S => Upgrading e runId S₀ msg ts₀ acc S ∧ (acc.1.follow path).isSome)
      (fun _ S => ∀ id ∈ S, id ≠ runId → id ∈ S₀) := by
  cases att with
  | bitcoin height => exact .pure ⟨h, hnode⟩
  | unknown tag payload => exact .pure ⟨h, hnode⟩
  | pending uri =>
    refine (ends_call (c := .fetch runId uri (e.ots.messageAt msg path))
      (Q := fun reply _ S' => S' = seen e (.fetch runId uri (e.ots.messageAt msg path)) (.ok reply) S) nofun
      (fun _ _ _ _ => rfl) fun _ => h.others).bind ?_
    rintro (_ | data) - _ rfl
    · exact .pure ⟨⟨h.others, h.confirmed, h.unchanged⟩, hnode⟩
    refine (ends_binding.mono (fun _ _ _ h => h) fun _ S' (hS' : S' = _) id hid hne => ?_).bind ?_
    · rw [hS'] at hid
      rcases hid with hid | ⟨hid, -⟩
      · exact h.others id hid hne
      · exact absurd hid hne
    rintro fragment - _ ⟨hfragment, rfl⟩
    have hatt : (Attestation.pending uri).isBitcoin = false := rfl
    have hgrows := grows_mergeReply hots hatt path fragment acc.1
    obtain ⟨node, hfollow⟩ := Option.isSome_iff_exists.mp hnode
    obtain ⟨node', hnode', -⟩ := hgrows path node hfollow
    refine .pure ⟨⟨?_, ?_, nofun⟩, ?_⟩
    · rintro id (hid | ⟨hid, -⟩) hne
      · exact h.others id hid hne
      · exact absurd hid hne
    · rintro (hid | ⟨-, fragment', hfragment', hverified⟩)
      · exact (h.confirmed hid).grows hots hgrows
      · rw [hfragment] at hfragment'
        cases hfragment'
        exact hasVerified_mergeReply hots hatt hnode (parseFragment_msg hfragment) hverified
    · rw [hnode']
      rfl

theorem ends_upgradeNode (hots : e.ots.Documented) {path : List O} {acc : OpTree O × Bool}
    (h : Upgrading e runId S₀ msg ts₀ acc S) :
    (upgradeNode e.ots (fun uri commitment => (call (.fetch runId uri commitment) : Steps K Header (Option Bytes)))
      msg acc path).Ends (sight (V := V) e n) () S (fun acc _ S => Upgrading e runId S₀ msg ts₀ acc S)
      (fun _ S => ∀ id ∈ S, id ≠ runId → id ∈ S₀) := by
  unfold upgradeNode
  cases hnode : acc.1.follow path with
  | none => exact .pure h
  | some node =>
    have hsome : (acc.1.follow path).isSome := by
      rw [hnode]
      rfl
    refine (Act.Ends.foldlM (P := fun acc _ _ S => Upgrading e runId S₀ msg ts₀ acc S ∧ (acc.1.follow path).isSome) ?_
      ⟨h, hsome⟩).mono (fun _ _ _ h => h.1) fun _ _ h => h
    rintro acc att rest - S ⟨h, hnode⟩
    exact ends_upgradeAttestation hots h hnode

/-- An upgrade loses no Bitcoin attestation and merges what it was replied. -/
theorem ends_upgrade (hots : e.ots.Documented) {file : DetachedFile O}
    (h : runId ∈ S → HasVerified e.ots e.chain file.timestamp) :
    (upgrade e.ots file fun uri commitment => (call (.fetch runId uri commitment) : Steps K Header (Option Bytes))).Ends
      (sight (V := V) e n) () S
      (fun x _ S' => (∀ id ∈ S', id ≠ runId → id ∈ S) ∧ (runId ∈ S' → HasVerified e.ots e.chain x.1.timestamp) ∧
        (x.2 = false → x.1 = file))
      (fun _ S' => ∀ id ∈ S', id ≠ runId → id ∈ S) := by
  have hnodes := Act.Ends.foldlM (v := sight (V := V) e n) (s := ()) (t := S)
    (P := fun acc (_ : List (List O)) _ S' => Upgrading e runId S file.timestamp.msg file.timestamp.tree acc S')
    (E := fun _ S' => ∀ id ∈ S', id ≠ runId → id ∈ S)
    (f := upgradeNode e.ots (fun uri commitment => (call (.fetch runId uri commitment) : Steps K Header (Option Bytes)))
      file.timestamp.msg)
    (fun acc path rest s S' hacc => ends_upgradeNode hots hacc) (b := (file.timestamp.tree, false))
    (l := walk file.timestamp.tree) ⟨fun _ hid _ => hid, h, fun _ => rfl⟩
  refine hnodes.bind ?_
  rintro ⟨tree, changed⟩ - S' hacc
  refine .pure ⟨hacc.others, hacc.confirmed, fun hunchanged => ?_⟩
  have htree : tree = file.timestamp.tree := hacc.unchanged hunchanged
  rw [htree]

omit [DecidableEq O] in
theorem ends_confirmAt {headers : Bool} {proof : Bytes} {sha256 : Sha256Hex} {status : ProofStatus} :
    (confirmAt e.ots headers proof sha256 status : Steps K Header (Option AwareDatetime)).Ends (sight (V := V) e n) () S
      (fun verifiedAt _ S' => (verifiedAt.isSome → e.Accepts proof sha256) ∧ S' = S) (fun _ S' => S' = S) := by
  unfold confirmAt
  split
  · refine ends_confirmBitcoin.bind ?_
    rintro _ - S' ⟨haccepts, rfl⟩
    refine (ends_call (c := .clock) (Q := fun _ _ S'' => S'' = S') nofun (fun _ _ _ _ => rfl) fun _ => rfl).bind ?_
    rintro at_ - _ rfl
    exact .pure ⟨fun _ => haccepts, rfl⟩
  · exact .pure ⟨nofun, rfl⟩

/-- What a check finds is confirmed whenever the party has seen so. -/
theorem ends_checkAnchor (hots : e.ots.Documented) {headers : Bool} {anchor : CommitmentAnchor} {stored : Bytes}
    (h : anchor.runId ∈ S → e.Accepts stored anchor.sha256) :
    (checkAnchor e.ots headers anchor stored : Steps K Header CheckedAnchor).Ends (sight (V := V) e n) () S
      (fun found _ S' => (∀ id ∈ S', id ≠ anchor.runId → id ∈ S) ∧
        (anchor.runId ∈ S' → e.Accepts found.proof anchor.sha256) ∧
        (found.verifiedAt.isSome → e.Accepts found.proof anchor.sha256))
      (fun _ S' => ∀ id ∈ S', id ≠ anchor.runId → id ∈ S) := by
  unfold checkAnchor
  refine (ends_binding.mono (fun _ _ _ h => h) fun _ S' (hS' : S' = S) id hid _ => hS' ▸ hid).bind ?_
  rintro file - S₁ ⟨hfile, rfl⟩
  have hstored : anchor.runId ∈ S₁ → HasVerified e.ots e.chain file.timestamp := by
    intro hid
    obtain ⟨-, file', hfile', hverified⟩ := accepted_iff.mp (h hid)
    rw [hfile] at hfile'
    cases hfile'
    exact hverified
  refine (ends_upgrade hots hstored).bind ?_
  rintro ⟨file', changed⟩ - S₂ ⟨hkept, hupgraded, hunchanged⟩
  -- what is stored reads back with the attestations of the upgraded file
  have hproof : (proofNow e.ots file' changed stored : Steps K Header Bytes).Ends (sight (V := V) e n) () S₂ (fun proof _ S' => S' = S₂ ∧ ∀ file'', loads e.ots proof = .ok file'' → HasVerified e.ots e.chain file'.timestamp →
        HasVerified e.ots e.chain file''.timestamp) (fun _ S' => S' = S₂) := by
    unfold proofNow
    split
    · unfold dumps
      cases hserialize : e.ots.serialize file' with
      | none => exact .throw rfl
      | some proof =>
        refine .pure ⟨rfl, ?_⟩
        rintro file'' hfile'' ⟨x, hx, hverified⟩
        exact ⟨x, (hots.serialize_attestations file' proof file'' hserialize (deserialize_of_loads hfile'') x).mpr hx,
          hverified⟩
    · next hchanged =>
      refine .pure ⟨rfl, fun file'' hfile'' hverified => ?_⟩
      rw [hfile] at hfile''
      cases hfile''
      rw [← hunchanged (Bool.eq_false_of_not_eq_true hchanged)]
      exact hverified
  have hothers : ∀ S' : Set UUID, S' = S₂ → ∀ id ∈ S', id ≠ anchor.runId → id ∈ S₁ := fun _ hS' => hS' ▸ hkept
  refine (hproof.mono (fun _ _ _ h => h) fun _ => hothers).bind ?_
  rintro proof - S₃ ⟨rfl, hreads⟩
  refine (ends_binding.mono (fun _ _ _ h => h) fun _ => hothers).bind ?_
  rintro status - S₄ ⟨hbinding, rfl⟩
  refine (ends_confirmAt.mono (fun _ _ _ h => h) fun _ => hothers).bind ?_
  rintro verifiedAt - S₅ ⟨hverifiedAt, rfl⟩
  refine .pure ⟨hkept, fun hid => ?_, hverifiedAt⟩
  obtain ⟨file'', hfile''⟩ := loads_of_checkBinding hbinding
  exact accepted_of_bound ⟨status, hbinding⟩ hfile'' (hreads file'' hfile'' (hupgraded hid))

omit [DecidableEq O] in
theorem ends_recordChecked {anchor : CommitmentAnchor} {found : CheckedAnchor} {summary : UpgradeSummary}
    (hseen : anchor.runId ∈ S → e.Accepts found.proof anchor.sha256)
    (hverified : found.verifiedAt.isSome → e.Accepts found.proof anchor.sha256) :
    (recordChecked anchor found summary : Steps K Header UpgradeSummary).Ends (sight (V := V) e n) () S
      (fun _ _ S' => S' = S) (fun _ _ => True) := by
  unfold recordChecked
  split
  · refine (ends_call (Q := fun _ _ S' => S' = S) ?_ (fun _ _ _ _ => rfl) fun _ => trivial).bind ?_
    · rintro _ ⟨⟩
      exact ⟨found.proof, rfl, hverified, hseen⟩
    · rintro _ - _ rfl
      exact .pure rfl
  · exact .pure rfl

/-- The anchors that a pass has left are as it read them. -/
def Remaining (e : Setting K Header O) (rest : List CommitmentAnchor) (S : Set UUID) : Prop :=
  (rest.map CommitmentAnchor.runId).Nodup ∧
    ∀ a ∈ rest, ∀ proof ∈ a.otsProof, a.runId ∈ S → e.Accepts proof a.sha256

omit [DecidableEq O] in
theorem Remaining.tail {anchor : CommitmentAnchor} {rest : List CommitmentAnchor} {S' : Set UUID}
    (h : Remaining e (anchor :: rest) S) (hothers : ∀ id ∈ S', id ≠ anchor.runId → id ∈ S) : Remaining e rest S' := by
  obtain ⟨hnodup, hseen⟩ := h
  obtain ⟨hnotin, hnodup⟩ := List.nodup_cons.mp hnodup
  refine ⟨hnodup, fun a ha proof hproof hid => hseen a (List.mem_cons_of_mem _ ha) proof hproof (hothers _ hid ?_)⟩
  intro hrun
  exact hnotin (hrun ▸ List.mem_map_of_mem ha)

theorem ends_upgradeOne (hots : e.ots.Documented) {headers : Bool} {summary : UpgradeSummary} {anchor : CommitmentAnchor}
    {rest : List CommitmentAnchor} (h : Remaining e (anchor :: rest) S) :
    (upgradeOne e.ots headers summary anchor : Steps K Header UpgradeSummary).Ends (sight (V := V) e n) () S
      (fun _ _ S' => Remaining e rest S') (fun _ _ => True) := by
  unfold upgradeOne
  cases hproof : anchor.otsProof with
  | none => exact .pure (h.tail fun _ hid _ => hid)
  | some stored =>
    have hstored := h.2 anchor List.mem_cons_self stored hproof
    have hchecked : (some <$> checkAnchor e.ots headers anchor stored : Steps K Header (Option CheckedAnchor)).Ends
        (sight (V := V) e n) () S
        (fun found _ S' => (∀ id ∈ S', id ≠ anchor.runId → id ∈ S) ∧ ∀ f ∈ found,
          (anchor.runId ∈ S' → e.Accepts f.proof anchor.sha256) ∧
          (f.verifiedAt.isSome → e.Accepts f.proof anchor.sha256))
        (fun _ S' => ∀ id ∈ S', id ≠ anchor.runId → id ∈ S) := by
      rw [map_eq_pure_bind]
      refine (ends_checkAnchor hots hstored).bind ?_
      rintro found - S' ⟨hothers, hfound⟩
      refine .pure ⟨hothers, fun f hf => ?_⟩
      cases hf
      exact hfound
    refine Act.Ends.bind (hchecked.tryCatch (E := fun _ _ => True) fun er _ S' hothers => ?_) ?_
    · cases er with
      | binding defect => exact .pure ⟨hothers, by simp⟩
      | _ => exact .throw trivial
    rintro (_ | found) - S' ⟨hothers, hfound⟩
    · exact .pure (h.tail hothers)
    · obtain ⟨hseen, hverified⟩ := hfound found rfl
      refine (ends_recordChecked hseen hverified).mono ?_ fun _ _ h => h
      rintro _ - S'' rfl
      exact h.tail hothers

theorem ends_upgradeAll (hots : e.ots.Documented) (headers : Bool) :
    (upgradeAll (K := K) e.ots headers).Ends (sight (V := V) e n) () S (fun _ _ _ => True) (fun _ _ => True) := by
  refine (ends_call (c := .anchorsAwaitingConfirmation)
    (Q := fun (anchors : List CommitmentAnchor) _ S' => Remaining e anchors S') nofun ?_ fun _ => trivial).bind ?_
  · rintro db anchors hkept rfl
    have hnodup : ((Store.anchorsAwaitingConfirmation db).map CommitmentAnchor.runId).Nodup := by
      refine ((List.perm_insertionSort _ _).map _).nodup_iff.mpr ?_
      exact hkept.unique.sublist (List.filter_sublist.map _)
    refine ⟨hnodup, fun a ha proof hproof hid => ?_⟩
    obtain ⟨a', ha', hrun, proof', hproof', haccepts⟩ := hid
    obtain rfl := List.inj_on_of_nodup_map hnodup ha' ha hrun
    rw [Option.mem_unique hproof hproof']
    exact haccepts
  · intro anchors _ S' hremaining
    refine (Act.Ends.foldlM (P := fun _ rest _ S => Remaining e rest S) ?_ hremaining).mono
      (fun _ _ _ _ => trivial) fun _ _ h => h
    intro summary anchor rest _ S'' hrest
    exact ends_upgradeOne hots hrest

end Upgrade

/-! ### The anchoring of a run -/

section Stage
variable {runId : UUID} {run : RunRecord K} {material : CommitmentMaterial K}

theorem ends_deadLetter {er : AnchorError} :
    (deadLetter e.message run er : Steps K Header Unit).Ends (sight (V := V) e n) () S (fun _ _ _ => True)
      (fun _ _ => True) := by
  have hrecord : (call (.recordDlq (mismatchRecord e.message run er)) : Steps K Header Unit).Ends (sight (V := V) e n) () S
      (fun _ _ _ => True) (fun _ _ => True) := ends_call nofun (fun _ _ _ _ => trivial) fun _ => trivial
  exact hrecord.tryCatch fun _ _ _ _ => .pure trivial

theorem ends_verified :
    (verified e.sha256 e.texts e.message run : Steps K Header (CommitmentMaterial K)).Ends (sight (V := V) e n) () S
      (fun material _ S' => S' = confirmedIn e run.runId (some material)) (fun _ _ => True) := by
  have hload : (loadVerified e.sha256 e.texts run : Steps K Header (CommitmentMaterial K)).Ends (sight (V := V) e n) () S
      (fun material _ S' => S' = confirmedIn e run.runId (some material)) (fun _ _ => True) := by
    refine (ends_call (c := .loadCommitmentMaterial run.runId)
      (Q := fun (m : Option (CommitmentMaterial K)) _ S' => S' = confirmedIn e run.runId m) nofun (fun _ _ _ _ => rfl)
      fun _ => trivial).bind ?_
    rintro (_ | material) - S' rfl
    · exact .throw trivial
    · cases hverify : verifyMaterial e.sha256 e.texts material with
      | error _ =>
        simp only [hverify]
        exact .throw trivial
      | ok _ =>
        simp only [hverify]
        exact .pure rfl
  refine hload.tryCatch fun er _ S' _ => ?_
  split
  · exact ends_deadLetter.bind fun _ _ _ _ => .throw trivial
  · exact .throw trivial

/-- The proof of a run is accepted when the party has seen one that is. -/
theorem ends_storedOrStamped :
    (storedOrStamped runId material : Steps K Header Bytes).Ends (sight (V := V) e n) ()
      (confirmedIn e runId (some material)) (fun proof _ S' => runId ∈ S' → e.Accepts proof material.storedSha256)
      (fun _ _ => True) := by
  -- what was seen of the run in its material is its stored proof, which is not empty
  have hstored : runId ∈ confirmedIn e runId (some material) →
      ∃ proof, (material.anchor.bind (·.otsProof)).filter (· ≠ []) = some proof ∧
        e.Accepts proof material.storedSha256 := by
    rintro ⟨-, m, hm, a, ha, proof, hproof, haccepts⟩
    cases hm
    refine ⟨proof, ?_, haccepts⟩
    have hne : proof ≠ [] := by
      rintro rfl
      obtain ⟨-, file, hfile, -⟩ := accepted_iff.mp haccepts
      rw [loads, if_pos (Or.inl rfl)] at hfile
      cases hfile
    rw [Option.filter_eq_some_iff]
    exact ⟨Option.bind_eq_some_iff.mpr ⟨a, ha, hproof⟩, decide_eq_true hne⟩
  unfold storedOrStamped
  split
  · next proof hproof =>
    refine .pure fun hid => ?_
    obtain ⟨proof', hproof', haccepts⟩ := hstored hid
    rw [hproof] at hproof'
    cases hproof'
    exact haccepts
  · next hnone =>
    refine ends_call nofun (fun _ proof _ _ => ?_) fun _ => trivial
    rintro (hid | ⟨-, haccepts⟩)
    · obtain ⟨proof', hproof', -⟩ := hstored hid
      rw [hnone] at hproof'
      cases hproof'
    · exact haccepts

theorem ends_markAnchored {proof : Bytes} {commit : String}
    (h : runId ∈ S → e.Accepts proof material.storedSha256) :
    (markAnchored runId material proof commit : Steps K Header AnchorResult).Ends (sight (V := V) e n) () S
      (fun _ _ _ => True) (fun _ _ => True) := by
  refine (ends_call (c := .clock) (Q := fun _ _ S' => S' = S) nofun (fun _ _ _ _ => rfl) fun _ => trivial).bind ?_
  rintro at_ - _ rfl
  split
  · refine (ends_call (Q := fun _ _ _ => True) ?_ (fun _ _ _ _ => trivial) fun _ => trivial).bind fun _ _ _ _ =>
      .pure trivial
    rintro _ ⟨⟩
    exact ⟨proof, rfl, nofun, h⟩
  · exact .throw trivial

theorem ends_advance :
    (advance e.texts e.ots runId material : Steps K Header AnchorResult).Ends (sight (V := V) e n) ()
      (confirmedIn e runId (some material)) (fun _ _ _ => True) (fun _ _ => True) := by
  have hproof : (proofFor e.ots runId material : Steps K Header Bytes).Ends (sight (V := V) e n) ()
      (confirmedIn e runId (some material)) (fun proof _ S' => runId ∈ S' → e.Accepts proof material.storedSha256)
      (fun _ _ => True) := by
    refine ends_storedOrStamped.bind fun proof _ S' hproof => ?_
    refine (ends_binding.mono (fun _ _ _ h => h) fun _ _ _ => trivial).bind ?_
    rintro _ - _ ⟨-, rfl⟩
    exact .pure hproof
  refine hproof.bind fun proof _ S' hproof => ?_
  refine (ends_call (c := .gitAnchor _ _) (Q := fun _ _ S'' => S'' = S') nofun (fun _ _ _ _ => rfl)
    fun _ => trivial).bind ?_
  rintro commit - S₁ rfl
  refine (ends_call (c := .isReachable _) (Q := fun _ _ S₂ => S₂ = S₁) nofun (fun _ _ _ _ => rfl)
    fun _ => trivial).bind ?_
  rintro reachable - _ rfl
  split
  · exact .throw trivial
  · exact ends_markAnchored hproof

theorem loadRun_runId {c : StoreCodec} (h : loadRun c db runId = .ok (some run)) : run.runId = runId := by
  unfold loadRun at h
  split at h
  · cases h
  · next row hrow =>
    split at h
    · cases h
      exact (KeyedTable.find_some hrow).2
    · cases h

theorem ends_anchorRun [DecidableEq O] (runId : UUID) :
    (anchorRun e.sha256 e.texts e.ots e.message runId).Ends (sight (V := V) e n) () S (fun _ _ _ => True)
      (fun _ _ => True) := by
  refine (ends_call (c := .loadRun runId)
    (Q := fun (run : Option (RunRecord K)) _ _ => ∀ r ∈ run, r.runId = runId) nofun ?_ fun _ => trivial).bind ?_
  · intro db run _ hload r hr
    have hloaded : loadRun e.codec db runId = .ok run := hload
    rw [Option.mem_def.mp hr] at hloaded
    exact loadRun_runId hloaded
  · rintro (_ | run) - S' hrun
    · exact .throw trivial
    obtain rfl := hrun run rfl
    refine ends_verified.bind ?_
    rintro material - _ rfl
    split
    · unfold replay
      split
      · exact (ends_binding.mono (fun _ _ _ _ => trivial) fun _ _ _ => trivial).bind fun _ _ _ _ => .pure trivial
      · exact .throw trivial
    · split
      · exact .throw trivial
      · exact ends_advance

end Stage

/-! ### Every run -/

variable [DecidableEq O] {w₀ : AnchorWorld K V} {s s' : Pool (anchorCalls K Header) (AnchorWorld K V)}

variable (e V) in
/-- The parties keep the anchors among themselves. -/
theorem sound (hots : e.ots.Documented) :
    Pool.Sound ((dynamics (V := V) e).restrict (WritesInformed e)) (party e) (fun w => Kept e w.db) where
  invs _ _ h := h
  move w w' h hmove := by
    obtain ⟨hanchors, hconfirmed⟩ := anchors_elsewhere hmove
    refine ⟨h.congr hanchors, fun n => ?_⟩
    show w'.confirmed n = w.confirmed n
    rw [hconfirmed]
  call n c w reply w' h hallowed hans := by
    obtain ⟨hinformed, hans⟩ := hans
    refine ⟨?_, hans, fun k hk => ?_⟩
    · have hanswer := hans.2
      cases reply with
      | ok a => exact (h.written hallowed hinformed hanswer.1).1
      | error er =>
        rcases hanswer with hsame | hwritten
        · exact h.congr (congrArg RunTables.commitmentAnchors hsame)
        · exact (h.written hallowed hinformed hwritten).1
    · show w'.confirmed k = w.confirmed k
      rw [hans.1, Function.update_of_ne hk]
  start n w p h hstart := by
    cases hstart with
    | upgradeAll headers => exact (ends_upgradeAll hots headers).void (v := sight e n) h
    | anchorRun runId => exact (ends_anchorRun runId).void (v := sight e n) h

/-- A step leaves no accepted proof replaced by another. -/
theorem never_replaced (hots : e.ots.Documented) (hgood : Pool.Good (party e) (fun w => Kept e w.db) s)
    (hstep : Pool.Step ((dynamics e).restrict (WritesInformed e)) s s') : NeverReplaced e s.world.db s'.world.db := by
  cases hstep with
  | move hmove => exact .of_eq (anchors_elsewhere hmove).1
  | call hp hans =>
    have hallowed := hgood.allowed (sound V e hots) hp
    obtain ⟨hinformed, -, hanswer⟩ := hans
    split at hanswer
    · exact (hgood.world.written hallowed hinformed hanswer.1).2
    · rcases hanswer with hsame | hwritten
      · exact .of_eq (congrArg RunTables.commitmentAnchors hsame)
      · exact (hgood.world.written hallowed hinformed hwritten).2
  | start => exact .of_eq rfl
  | stop => exact .of_eq rfl

/-- Whatever upgrade passes and anchoring stages run together, fail and stop, while every write that meets a stored
    proof that is accepted comes from a party that has seen one accepted: an anchor with a confirmation time has an
    accepted proof, an anchor without one is still awaiting its confirmation, and the next step replaces an accepted
    proof only by an accepted one. -/
theorem upgrades_kept (hots : e.ots.Documented) (hstart : Kept e w₀.db)
    (hreaches : Pool.Reaches ((dynamics e).restrict (WritesInformed e)) (Pool.idle w₀) s) :
    (∀ a ∈ s.world.db.commitmentAnchors, a.verifiedAt.isSome → ∃ proof ∈ a.otsProof, e.Accepts proof a.sha256) ∧
    (∀ a ∈ s.world.db.commitmentAnchors, ∀ proof ∈ a.otsProof, ¬ e.Accepts proof a.sha256 →
      a ∈ Store.anchorsAwaitingConfirmation s.world.db) ∧
    ∀ s', Pool.Step ((dynamics e).restrict (WritesInformed e)) s s' → NeverReplaced e s.world.db s'.world.db := by
  have hidle : Pool.Good (party e) (fun w => Kept e w.db) (Pool.idle w₀) := Pool.good_idle hstart
  have hgood := hidle.reaches (sound V e hots) hreaches
  exact ⟨hgood.world.verified, fun a ha proof hproof hnot => hgood.world.awaiting ha hproof hnot,
    fun s' hstep => never_replaced hots hgood hstep⟩

end AnchorStage

/-! ### A package of leaves -/

namespace OpenTimestamps
open Anchoring

section Package
variable {O : Type} [DecidableEq O]

mutual
/-- The two trees in one. -/
def mergeTrees (ts : OpTree O) : OpTree O → OpTree O
  | .node attestations ops => .node (ts.attestations ++ attestations) (mergeOps ts.ops ops)

def mergeOps (ops : List (O × OpTree O)) : List (O × OpTree O) → List (O × OpTree O)
  | [] => ops
  | (op, child) :: rest =>
    mergeOps (if (ops.lookup op).isSome then ops.map fun x => if x.1 = op then (x.1, mergeTrees x.2 child) else x
      else ops ++ [(op, child)]) rest
end
theorem extends_refl (ts : OpTree O) : ts.Extends ts := fun _ n hn => ⟨n, hn, List.Subset.refl _⟩

theorem extends_trans {ts ts' ts'' : OpTree O} (h : ts.Extends ts') (h' : ts'.Extends ts'') : ts.Extends ts'' := by
  intro path n hn
  obtain ⟨n', hn', hatt⟩ := h path n hn
  obtain ⟨n'', hn'', hatt'⟩ := h' path n' hn'
  exact ⟨n'', hn'', fun a ha => hatt' (hatt ha)⟩

/-- Every branch of the one list is extended by one of the other. -/
def OpsExtend (ops ops' : List (O × OpTree O)) : Prop :=
  ∀ op child, ops.lookup op = some child → ∃ child', ops'.lookup op = some child' ∧ child.Extends child'

theorem extends_node {ts ts' : OpTree O} (hatt : ts.attestations ⊆ ts'.attestations) (hops : OpsExtend ts.ops ts'.ops) :
    ts.Extends ts' := by
  intro path n hn
  cases path with
  | nil =>
    cases hn
    exact ⟨ts', rfl, hatt⟩
  | cons op path =>
    obtain ⟨child, hchild, hn⟩ := Option.bind_eq_some_iff.mp hn
    obtain ⟨child', hchild', hextends⟩ := hops op child hchild
    obtain ⟨n', hn', hsub⟩ := hextends path n hn
    refine ⟨n', ?_, hsub⟩
    rw [OpTree.follow, hchild']
    exact hn'

mutual

theorem mergeTrees_extends (ts : OpTree O) : (other : OpTree O) →
    ts.Extends (mergeTrees ts other) ∧ other.Extends (mergeTrees ts other)
  | .node attestations ops => by
    obtain ⟨hown, hadded⟩ := mergeOps_extends ts.ops ops
    exact ⟨extends_node (List.subset_append_left _ _) hown, extends_node (List.subset_append_right _ _) hadded⟩

theorem mergeOps_extends (ops : List (O × OpTree O)) : (others : List (O × OpTree O)) →
    OpsExtend ops (mergeOps ops others) ∧ OpsExtend others (mergeOps ops others)
  | [] => ⟨fun _ child h => ⟨child, h, extends_refl child⟩, nofun⟩
  | (op, child) :: rest => by
    -- the branches after the first of the others is merged
    have hfirst : ∃ ops', mergeOps ops ((op, child) :: rest) = mergeOps ops' rest ∧ OpsExtend ops ops' ∧
        ∃ child', ops'.lookup op = some child' ∧ child.Extends child' := by
      refine ⟨_, rfl, ?_⟩
      split
      · next hsome =>
        refine ⟨fun op' own hown => ?_, ?_⟩
        · refine ⟨_, by rw [OpTree.lookup_modify (f := fun t => mergeTrees t child), hown, Option.map_some], ?_⟩
          split
          · exact (mergeTrees_extends own child).1
          · exact extends_refl own
        · obtain ⟨own, hown⟩ := Option.isSome_iff_exists.mp hsome
          refine ⟨_, by rw [OpTree.lookup_modify (f := fun t => mergeTrees t child), hown, Option.map_some], ?_⟩
          rw [if_pos rfl]
          exact (mergeTrees_extends own child).2
      · next hnone =>
        have hnone : ops.lookup op = none := Option.not_isSome_iff_eq_none.mp hnone
        refine ⟨fun op' own hown => ⟨own, ?_, extends_refl own⟩, child, ?_, extends_refl child⟩
        · rw [List.lookup_append, hown, Option.some_or]
        · rw [List.lookup_append, hnone, Option.none_or, List.lookup_cons_self]
    obtain ⟨ops', hmerge, hown, child', hchild', hextends⟩ := hfirst
    obtain ⟨hkept, hadded⟩ := mergeOps_extends ops' rest
    rw [hmerge]
    refine ⟨fun op' own h => ?_, fun op' other h => ?_⟩
    · obtain ⟨own', hown', hext⟩ := hown op' own h
      obtain ⟨own'', hown'', hext'⟩ := hkept op' own' hown'
      exact ⟨own'', hown'', extends_trans hext hext'⟩
    · by_cases hop : op' = op
      · subst hop
        rw [List.lookup_cons_self] at h
        cases h
        obtain ⟨child'', hchild'', hext'⟩ := hkept op' child' hchild'
        exact ⟨child'', hchild'', extends_trans hextends hext'⟩
      · rw [List.lookup_cons, beq_eq_false_iff_ne.mpr hop] at h
        exact hadded op' other h

end

/-- Every place of a tree is visited. -/
theorem mem_walk {ts n : OpTree O} {path : List O} (h : ts.follow path = some n) : path ∈ walk ts := by
  induction path generalizing ts with
  | nil =>
    cases ts
    rw [walk]
    exact List.mem_cons_self
  | cons op path ih =>
    obtain ⟨child, hchild, hn⟩ := Option.bind_eq_some_iff.mp h
    have hpath := ih hn
    cases ts with
    | node attestations ops =>
      rw [walk]
      refine List.mem_cons_of_mem _ ?_
      have hops : ops.lookup op = some child := hchild
      clear hchild h
      induction ops with
      | nil => cases hops
      | cons x ops ih' =>
        obtain ⟨op', child'⟩ := x
        rw [walkOps, List.mem_append]
        by_cases hop : op = op'
        · subst hop
          rw [List.lookup_cons_self] at hops
          cases hops
          exact Or.inl (List.mem_map_of_mem hpath)
        · rw [List.lookup_cons, beq_eq_false_iff_ne.mpr hop] at hops
          exact Or.inr (ih' hops)

/-- `all_attestations`. -/
def attestationsOf (apply : O → Bytes → Bytes) (ts : Timestamp O) : List (Bytes × Attestation) :=
  (walk ts.tree).flatMap fun path =>
    match ts.tree.follow path with
    | none => []
    | some n => n.attestations.map fun att => (path.foldl (fun msg op => apply op msg) ts.msg, att)

theorem mem_attestationsOf {apply : O → Bytes → Bytes} {ts : Timestamp O} {msg : Bytes} {att : Attestation} :
    (msg, att) ∈ attestationsOf apply ts ↔ ∃ path n, ts.tree.follow path = some n ∧
      path.foldl (fun msg op => apply op msg) ts.msg = msg ∧ att ∈ n.attestations := by
  rw [attestationsOf, List.mem_flatMap]
  constructor
  · rintro ⟨path, -, hpath⟩
    split at hpath
    · cases hpath
    · next n hn =>
      obtain ⟨att', hatt, heq⟩ := List.mem_map.mp hpath
      cases heq
      exact ⟨path, n, hn, rfl, hatt⟩
  · rintro ⟨path, n, hn, rfl, hatt⟩
    refine ⟨path, mem_walk hn, ?_⟩
    rw [hn]
    exact List.mem_map.mpr ⟨att, hatt, rfl⟩

end Package

def zeroDigest : Bytes := List.replicate 32 0

/-- What a detached file of that SHA-256 digest begins with. -/
def fileHeader : Bytes :=
  [0x00, 0x4f, 0x70, 0x65, 0x6e, 0x54, 0x69, 0x6d, 0x65, 0x73, 0x74, 0x61, 0x6d, 0x70, 0x73, 0x00, 0x00, 0x50, 0x72, 0x6f,
    0x6f, 0x66, 0x00, 0xbf, 0x89, 0xe2, 0xe8, 0x84, 0xe8, 0x92, 0x94, 0x01, 0x08] ++ List.replicate 32 0

/-- The bytes of an attestation. -/
def attestationBytes : Attestation → Bytes
  | .pending uri =>
    [0x00, 0x83, 0xdf, 0xe3, 0x0d, 0x2e, 0xf9, 0x0c, 0x8e, UInt8.ofNat (uri.length + 1), UInt8.ofNat uri.length] ++
      uri.toList.map fun c => UInt8.ofNat c.toNat
  | .bitcoin height => [0x00, 0x05, 0x88, 0x96, 0x0d, 0x73, 0xd7, 0x19, 0x01, 0x01, UInt8.ofNat height]
  | .unknown tag payload => 0x00 :: tag ++ payload

/-- One or more attestations, each but the last with a mark before it. -/
def attestationsBytes : List Attestation → Bytes
  | [] => []
  | [att] => attestationBytes att
  | att :: rest => 0xff :: attestationBytes att ++ attestationsBytes rest

/-- The file whose timestamp has these attestations and no operations. -/
def leafFile (atts : List Attestation) : DetachedFile String := ⟨.sha256, zeroDigest, ⟨zeroDigest, .node atts []⟩⟩

def leafBytes (atts : List Attestation) : Bytes := fileHeader ++ attestationsBytes atts

def calendar : Attestation := .pending "https://a.pool"

def upstream : Attestation := .pending "https://b.pool"

def leaves : List (List Attestation) := [[calendar], [calendar, upstream], [.bitcoin 100]]

/-- The package on files without operations. -/
def leafPackage : Package String Bytes where
  apply op msg := msg ++ op.toList.map fun c => UInt8.ofNat c.toNat
  deserialize data := (leaves.find? fun atts => leafBytes atts = data).map leafFile
  serialize file :=
    match file.timestamp.tree with
    | .node atts [] => if file.timestamp.msg = zeroDigest ∧ atts ∈ leaves then some (leafBytes atts) else none
    | _ => none
  deserializeReply data _ := ([calendar, upstream, .bitcoin 100].find? fun att => attestationBytes att = data).map fun att =>
    .node [att] []
  merge := mergeTrees
  allAttestations := attestationsOf fun op msg => msg ++ op.toList.map fun c => UInt8.ofNat c.toNat
  verifyAgainstBlockheader _ msg header := if msg.length = 32 ∧ msg = header then some 1700000000 else none

theorem leafBytes_inj : ∀ l ∈ leaves, ∀ l' ∈ leaves, leafBytes l = leafBytes l' → l = l' := by decide

theorem loads_leaf {atts : List Attestation} (h : atts ∈ leaves) :
    loads leafPackage (leafBytes atts) = .ok (leafFile atts) := by
  have hlength : ∀ l ∈ leaves, ¬ (leafBytes l = [] ∨ maxProofBytes < (leafBytes l).length) := by decide +kernel
  have hfind : leaves.find? (fun l => leafBytes l = leafBytes atts) = some atts := by
    cases hfind : leaves.find? (fun l => leafBytes l = leafBytes atts) with
    | none =>
      have hnone := List.find?_eq_none.mp hfind atts h
      exact absurd (decide_eq_true rfl) hnone
    | some l =>
      have hl := List.find?_some hfind
      simp only [decide_eq_true_eq] at hl
      rw [leafBytes_inj l (List.mem_of_find?_eq_some hfind) atts h hl]
  have hread : leafPackage.deserialize (leafBytes atts) = some (leafFile atts) := by
    show (leaves.find? fun l => leafBytes l = leafBytes atts).map leafFile = _
    rw [hfind]
    rfl
  rw [loads, if_neg (hlength atts h), hread]

theorem leafPackage_documented : leafPackage.Documented where
  serialize_attestations file data file' hserialize hdeserialize x := by
    obtain ⟨hashOp, digest, msg, tree⟩ := file
    obtain ⟨atts, ops⟩ := tree
    cases ops with
    | cons _ _ => cases hserialize
    | nil =>
      simp only [leafPackage] at hserialize hdeserialize
      split at hserialize
      · next h =>
        obtain ⟨rfl, hmem⟩ := h
        cases hserialize
        obtain ⟨l, hfind, rfl⟩ := Option.map_eq_some_iff.mp hdeserialize
        have hl := List.find?_some hfind
        rw [decide_eq_true_eq] at hl
        rw [leafBytes_inj l (List.mem_of_find?_eq_some hfind) atts hmem hl]
        rfl
      · cases hserialize
  merge_extends := mergeTrees_extends
  mem_allAttestations _ _ _ := mem_attestationsOf


end OpenTimestamps

namespace AnchorStage
open OpenTimestamps Anchoring Store Sink

/-! ### A stale pass -/

/-- Headers of the zero digest, and the package of leaves. -/
noncomputable def leafSetting : Setting ℚ Bytes String where
  sha256 _ := zeroHex
  texts := decimalText
  json := noJson
  codec := utcCodec
  message _ := ""
  ots := leafPackage
  chain _ := zeroDigest

/-- The anchor of run 1 with such a proof. -/
def leafAnchor (atts : List Attestation) (verifiedAt : Option AwareDatetime) : CommitmentAnchor where
  runId := ⟨1⟩
  sha256 := zeroHex
  otsProof := some (leafBytes atts)
  gitCommit := none
  anchoredAt := ⟨0, 0⟩
  verifiedAt := verifiedAt

/-- Tables with that anchor. -/
def anchorTables (atts : List Attestation) (verifiedAt : Option AwareDatetime) : RunTables ℚ Unit :=
  { noTables with commitmentAnchors := [leafAnchor atts verifiedAt] }

theorem accepts_bitcoin : leafSetting.Accepts (leafBytes [.bitcoin 100]) zeroHex := ⟨⟨100, 1700000000⟩, by rfl⟩

theorem not_accepts_pending {atts : List Attestation} (hatts : atts ∈ leaves)
    (hpending : ∀ att ∈ atts, att.isBitcoin = false) : ¬ leafSetting.Accepts (leafBytes atts) zeroHex := by
  intro h
  obtain ⟨-, file, hfile, ⟨msg, att⟩, hx, height, rfl, -⟩ := accepted_iff.mp h
  have hsame : file = leafFile atts := Except.ok.inj (hfile.symm.trans (loads_leaf hatts))
  rw [hsame] at hx
  obtain ⟨path, n, hn, -, hatt⟩ := mem_attestationsOf.mp hx
  cases path with
  | nil =>
    cases hn
    exact absurd (hpending _ hatt) nofun
  | cons op path => cases hn

theorem upsert_leafAnchor (atts atts' : List Attestation) (verifiedAt verifiedAt' : Option AwareDatetime) :
    upsertAnchor (anchorTables atts verifiedAt) (leafAnchor atts' verifiedAt') =
      .ok (anchorTables atts' (verifiedAt'.or verifiedAt)) := by
  have hstored : (anchorTables atts verifiedAt).anchor? (leafAnchor atts' verifiedAt').runId =
    some (leafAnchor atts verifiedAt) := rfl
  have hsha : (leafAnchor atts verifiedAt).sha256 = (leafAnchor atts' verifiedAt').sha256 := rfl
  simp only [upsertAnchor, hstored, if_pos hsha]
  rfl

section Hears
variable {K V Header O : Type} [Field K] [LinearOrder K] {e : Setting K Header O}

/-- The world after a call that leaves the tables so. -/
def AnchorWorld.hears (e : Setting K Header O) (w : AnchorWorld K V) (n : Nat) (c : AnchorCall)
    (reply : Except AnchorError (c.Result K Header)) (db : RunTables K V) : AnchorWorld K V :=
  ⟨db, Function.update w.confirmed n (seen e c reply (w.confirmed n))⟩

theorem answers_hears {w : AnchorWorld K V} {n : Nat} {c : AnchorCall} {a : c.Result K Header} {db : RunTables K V}
    (hwritten : Written e c w.db db) (hreturned : Returned e c w.db a) :
    Answers e n c w (.ok a) (w.hears e n c (.ok a) db) := ⟨rfl, hwritten, hreturned⟩

end Hears

/-- Run 1 is anchored with a pending proof. -/
def pendingWorld : AnchorWorld ℚ Unit := ⟨anchorTables [calendar] none, fun _ => ∅⟩

theorem kept_pending : Kept leafSetting pendingWorld.db where
  unique := List.nodup_singleton _
  verified a ha hconfirmed := by
    rw [List.mem_singleton.mp ha] at hconfirmed
    cases hconfirmed

/-- What a pass asks the calendar of that anchor. -/
def leafFetch : AnchorCall := .fetch ⟨1⟩ "https://a.pool" zeroDigest

/-- While the pending proof is stored, any write is informed. -/
theorem informed_pending {n : Nat} {c : AnchorCall} {w : AnchorWorld ℚ Unit} (hdb : w.db = anchorTables [calendar] none) :
    WritesInformed leafSetting n c w := by
  intro anchor _ stored hstored proof hproof haccepts
  rw [hdb] at hstored
  obtain rfl := List.mem_singleton.mp (KeyedTable.find_some hstored).1
  cases hproof
  exact absurd haccepts (@not_accepts_pending [calendar] (by decide) (by decide))

/-- A pass that reads the pending proof before another confirms it, and is replied another promise, writes its proof
    over the confirmed one. The confirmation time stays, and the anchor is not awaiting a confirmation any more. -/
theorem stale_pass_replaces :
    leafSetting.ots.Documented ∧ Kept leafSetting pendingWorld.db ∧
      ∃ s s', Pool.Reaches (dynamics leafSetting) (Pool.idle pendingWorld) s ∧ Pool.Step (dynamics leafSetting) s s' ∧
        ¬ NeverReplaced leafSetting s.world.db s'.world.db ∧
        ∃ a ∈ s'.world.db.commitmentAnchors, a.verifiedAt.isSome ∧
          (∀ proof ∈ a.otsProof, ¬ leafSetting.Accepts proof a.sha256) ∧
          a ∉ Store.anchorsAwaitingConfirmation s'.world.db := by
  have hstale := @not_accepts_pending [calendar, upstream] (by decide) (by decide)
  -- both passes read the pending proof, and the second is replied before the first
  have h := Relation.ReflTransGen.single (Pool.Step.start (D := dynamics leafSetting) (s := Pool.idle pendingWorld)
    (n := 0) rfl (.upgradeAll true))
  have h := h.tail (.start (n := 1) rfl (.upgradeAll true))
  have h := h.tail (.call (n := 0) rfl (answers_hears (e := leafSetting) (c := .anchorsAwaitingConfirmation)
    (a := [leafAnchor [calendar] none]) rfl rfl))
  have h := h.tail (.call (n := 1) rfl (answers_hears (e := leafSetting) (c := .anchorsAwaitingConfirmation)
    (a := [leafAnchor [calendar] none]) rfl rfl))
  have h := h.tail (.call (n := 1) rfl (answers_hears (e := leafSetting) (c := leafFetch)
    (a := some (attestationBytes upstream)) rfl trivial))
  -- the first confirms
  have h := h.tail (.call (n := 0) rfl (answers_hears (e := leafSetting) (c := leafFetch)
    (a := some (attestationBytes (.bitcoin 100))) rfl trivial))
  have h := h.tail (.call (n := 0) rfl (answers_hears (e := leafSetting) (c := .header 100) (a := zeroDigest) rfl rfl))
  have h := h.tail (.call (n := 0) rfl (answers_hears (e := leafSetting) (c := .clock)
    (a := (⟨5, 0⟩ : AwareDatetime)) rfl trivial))
  have h := h.tail (.call (n := 0) rfl (answers_hears (e := leafSetting) (c := .recordAnchor _) (a := ())
    (upsert_leafAnchor [calendar] [.bitcoin 100] none (some ⟨5, 0⟩)) trivial))
  refine ⟨leafPackage_documented, kept_pending, _, _, h, .call (n := 1) rfl (answers_hears (e := leafSetting)
    (c := .recordAnchor _) (a := ())
    (upsert_leafAnchor [.bitcoin 100] [calendar, upstream] (some ⟨5, 0⟩) none) trivial), ?_,
    leafAnchor [calendar, upstream] (some ⟨5, 0⟩), List.mem_cons_self, rfl, ?_, nofun⟩
  · intro hnever
    obtain ⟨a, ha, -, -, proof, hproof, haccepts⟩ := hnever (leafAnchor [.bitcoin 100] (some ⟨5, 0⟩)) List.mem_cons_self
      _ rfl accepts_bitcoin
    cases List.mem_singleton.mp ha
    cases hproof
    exact hstale haccepts
  · rintro proof hproof
    cases hproof
    exact hstale

/-- One pass alone confirms the pending proof. -/
theorem upgrades_kept_pass :
    ∃ s, s.world.db = anchorTables [.bitcoin 100] (some ⟨5, 0⟩) ∧
      (∀ a ∈ s.world.db.commitmentAnchors, a.verifiedAt.isSome →
        ∃ proof ∈ a.otsProof, leafSetting.Accepts proof a.sha256) ∧
      (∀ a ∈ s.world.db.commitmentAnchors, ∀ proof ∈ a.otsProof, ¬ leafSetting.Accepts proof a.sha256 →
        a ∈ Store.anchorsAwaitingConfirmation s.world.db) ∧
      ∀ s', Pool.Step ((dynamics leafSetting).restrict (WritesInformed leafSetting)) s s' →
        NeverReplaced leafSetting s.world.db s'.world.db := by
  have h := Relation.ReflTransGen.single (Pool.Step.start
    (D := (dynamics leafSetting).restrict (WritesInformed leafSetting)) (s := Pool.idle pendingWorld)
    (n := 0) rfl (.upgradeAll true))
  have h := h.tail (.call (n := 0) rfl ⟨nofun, answers_hears (e := leafSetting) (c := .anchorsAwaitingConfirmation)
    (a := [leafAnchor [calendar] none]) rfl rfl⟩)
  have h := h.tail (.call (n := 0) rfl ⟨nofun, answers_hears (e := leafSetting) (c := leafFetch)
    (a := some (attestationBytes (.bitcoin 100))) rfl trivial⟩)
  have h := h.tail (.call (n := 0) rfl ⟨nofun, answers_hears (e := leafSetting) (c := .header 100) (a := zeroDigest)
    rfl rfl⟩)
  have h := h.tail (.call (n := 0) rfl ⟨nofun, answers_hears (e := leafSetting) (c := .clock)
    (a := (⟨5, 0⟩ : AwareDatetime)) rfl trivial⟩)
  exact ⟨_, rfl, upgrades_kept leafPackage_documented kept_pending (h.tail (.call (n := 0) rfl ⟨informed_pending rfl,
    answers_hears (e := leafSetting) (c := .recordAnchor _) (a := ())
    (upsert_leafAnchor [calendar] [.bitcoin 100] none (some ⟨5, 0⟩)) trivial⟩))⟩

end AnchorStage
end AsymmetricCommittee
