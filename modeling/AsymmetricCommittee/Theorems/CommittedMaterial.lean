import AsymmetricCommittee.Theorems.CanonicalCommitment
import AsymmetricCommittee.Contracts.Samples
import AsymmetricCommittee.Theorems.HaltRecords

/-! # Committed runs verify

The rows of a committed run are those of the flush that committed it: a later flush either presents the same
content, and inserts nothing, or another digest, and is refused. So they recompute to the stored digest in every
state, when the flushes of the run date every decision with the run and give no two decisions the same security and
horizon, and the run is not said to end before it started. -/

namespace AsymmetricCommittee
namespace Sink
open Store

variable {K V : Type} [Field K] [LinearOrder K] {sha256 : String → Sha256Hex} {json : AuditJson K}
  {db db' : RunTables K V}

/-! ### What the flushes of a run have in common -/

/-- The bytes that a commitment of the flush is the digest of. -/
def flushBytes (F : Json.FloatText K) (s : StepArtifacts K V) (snapshot : PortfolioSnapshot K) :
    Except CommitmentError String := (commitmentPayload s.run s.decisions snapshot).map (canonicalBytes F)

/-- The flush is of the run, and has decisions and a portfolio exactly when it has a commitment, which is their
    digest. -/
structure CommitsOwn (sha256 : String → Sha256Hex) (F : Json.FloatText K) (i : RunIdentity) (s : StepArtifacts K V) :
    Prop where
  identity : s.run.identity.utc = i.utc
  uncommitted : s.commitment = none → s.decisions = [] ∧ s.portfolio = none
  committed : ∀ c ∈ s.commitment, ∃ p ∈ s.portfolio, commitmentHash sha256 F s.run s.decisions p = .ok c.sha256

/-- The decisions of the flush have their own rows, which give them back. -/
structure RowsFaithful (i : RunIdentity) (s : StepArtifacts K V) : Prop where
  keys : (s.decisions.map commitmentKey).Nodup
  asOf : ∀ d ∈ s.decisions, d.decision.asOf.instant = i.asOf.instant

/-- The operation, when it is of the run, commits its own content in faithful rows and does not end the run before
    its start. -/
def OpFaithful (sha256 : String → Sha256Hex) (F : Json.FloatText K) (i : RunIdentity) (start : Int) : Op K V → Prop
  | .flushStep s => s.run.runId = i.runId → CommitsOwn sha256 F i s ∧ RowsFaithful i s ∧ s.run.startedAt.instant = start
  | .markExecuted runId endedAt => runId = i.runId → start ≤ endedAt.instant
  | .recordHalt e => e.runId = i.runId → start ≤ e.triggeredAt.instant
  | _ => True

/-- The documents that the flushes of the run commit to. -/
def documents (F : Json.FloatText K) (i : RunIdentity) (ops : List (Op K V)) : Set String :=
  { text | ∃ s, Op.flushStep s ∈ ops ∧ s.run.runId = i.runId ∧ ∃ p ∈ s.portfolio, flushBytes F s p = .ok text }

/-! ### The invariant -/

/-- The row is of the run, and reads back. -/
structure RowKept (i : RunIdentity) (start : Int) (r : RunRow K) : Prop where
  identity : r.identity.utc = i.utc
  started : r.startedAt.instant = start
  reason : ∀ reason ∈ r.statusReason, reason.length ≤ 1000
  ended : ∀ ended ∈ r.endedAt, start ≤ ended.instant

/-- The rows of the run hold what a document of the digest was made of. -/
def HoldsDocument (sha256 : String → Sha256Hex) (F : Json.FloatText K) (i : RunIdentity) (docs : Set String)
    (db : RunTables K V) (digest : Sha256Hex) : Prop :=
  ∃ (run : RunRecord K) (decisions : List (CommitteeDecisionRecord K)) (snapshot : PortfolioSnapshot K) (text : String),
    run.identity.utc = i.utc ∧ (decisions.map commitmentKey).Nodup ∧
      (∀ d ∈ decisions, d.decision.asOf.instant = i.asOf.instant) ∧
      (commitmentPayload run decisions snapshot).map (canonicalBytes F) = .ok text ∧ text ∈ docs ∧ sha256 text = digest ∧
      (db.committeeDecisions.filter fun d => decide (d.runId = i.runId)).Perm (decisions.map decisionRow) ∧
      db.snapshot? i.runId = some snapshot

structure Intact (sha256 : String → Sha256Hex) (F : Json.FloatText K) (i : RunIdentity) (start : Int)
    (docs : Set String) (db : RunTables K V) : Prop where
  row : ∀ r ∈ db.run? i.runId, RowKept i start r
  stored : ∀ c ∈ db.decisionCommitments, c.runId = i.runId → db.commitment? i.runId = some c ∧ (db.run? i.runId).isSome
  unwritten : db.commitment? i.runId = none →
    (∀ d ∈ db.committeeDecisions, d.runId ≠ i.runId) ∧ db.snapshot? i.runId = none
  written : ∀ c ∈ db.commitment? i.runId, HoldsDocument sha256 F i docs db c.sha256
  anchored : ∀ a ∈ db.anchor? i.runId, ∃ c ∈ db.commitment? i.runId, a.sha256 = c.sha256

variable {F : Json.FloatText K} {i : RunIdentity} {start : Int} {docs : Set String}

/-! ### Intact tables verify -/

theorem RowKept.valid (c : StoreCodec) {r : RunRow K} (h : RowKept i start r) : (readRun c r).Valid := by
  refine ⟨h.reason, fun ended hended => ?_⟩
  simp only [readRun, Option.mem_def, Option.map_eq_some_iff] at hended
  obtain ⟨stored, hstored, rfl⟩ := hended
  exact h.started.le.trans (h.ended stored hstored)

/-- The rows of a run that reads back are loaded as what the document was made of. -/
theorem HoldsDocument.loads (c : StoreCodec) {digest : Sha256Hex} (h : HoldsDocument sha256 F i docs db digest)
    {r : RunRow K} (hr : db.run? i.runId = some r) (hkept : RowKept i start r) {commitment : DecisionCommitment}
    (hc : db.commitment? i.runId = some commitment) :
    ∃ material, loadCommitmentMaterial c db i.runId = .ok (some material) ∧
      material.storedSha256 = commitment.sha256 ∧ material.anchor = db.anchor? i.runId ∧
      ∃ text ∈ docs, sha256 text = digest ∧
        (commitmentPayload material.run material.decisions material.snapshot).map (canonicalBytes F) = .ok text := by
  obtain ⟨run, decisions, snapshot, text, hidentity, hkeys, hasOf, htext, hdoc, hsha, hrows, hsnapshot⟩ := h
  -- the run that is read back has the identity, at the instants it was stored with
  let read : RunRecord K := ⟨readRun c r, hkept.valid c⟩
  have hread : read.identity.utc = i.utc := hkept.identity
  have hreadId : read.runId = i.runId := congrArg RunIdentity.runId hread
  have hreadAsOf : read.asOf.instant = i.asOf.instant := congrArg (fun i : RunIdentity => i.asOf.instant) hread
  have hrunId : run.runId = i.runId := congrArg RunIdentity.runId hidentity
  obtain ⟨p, hp, -⟩ := Except.map_eq_ok.mp htext
  have hdecisionRun := (commitmentPayload_eq_ok.mp hp).2.1
  rw [← hreadId] at hrows hsnapshot
  obtain ⟨decisions', hdecisions', hperm⟩ := loadDecisions_of_rows c hrows
    (fun d hd => (hdecisionRun d hd).trans (hrunId.trans hreadId.symm)) fun d hd => (hasOf d hd).trans hreadAsOf.symm
  obtain ⟨snapshot', hsnapshot', hutc⟩ := loadSnapshot_of_row c hsnapshot
  have hbytes : (commitmentPayload read decisions' snapshot').map (canonicalBytes F) = .ok text := by
    rw [commitmentBytes_congr F hkeys (hread.trans hidentity.symm) hperm hutc, htext]
  refine ⟨⟨read, decisions', snapshot', commitment.sha256, commitment.committedAt, db.anchor? i.runId⟩, ?_, rfl, rfl,
    text, hdoc, hsha, hbytes⟩
  have hrun : loadRun c db i.runId = .ok (some read) := by
    rw [loadRun, hr]
    exact dif_pos (hkept.valid c)
  rw [hreadId] at hsnapshot'
  rw [loadCommitmentMaterial, hrun, hc]
  simp only [bind, Except.bind, hsnapshot', hdecisions']
  rfl

/-- Verification compares the digest of the material's bytes. -/
theorem verifyMaterial_of_bytes {material : CommitmentMaterial K} {text : String}
    (h : (commitmentPayload material.run material.decisions material.snapshot).map (canonicalBytes F) = .ok text) :
    verifyMaterial sha256 F material =
      if sha256 text ≠ material.storedSha256 then .error .mismatch
      else if material.anchor.any fun anchor => anchor.sha256 ≠ sha256 text then .error .anchorMismatch
      else .ok (sha256 text) := by
  have hhash : commitmentHash sha256 F material.run material.decisions material.snapshot = .ok (sha256 text) := by
    obtain ⟨p, hp, hcanonical⟩ := Except.map_eq_ok.mp h
    rw [commitmentHash, hp, Except.map, hcanonical]
  by_cases hne : sha256 text ≠ material.storedSha256
  · simp only [verifyMaterial, verifyCommitment, hhash, if_pos hne]
  · simp only [verifyMaterial, verifyCommitment, hhash, if_neg hne]

theorem Intact.loads (c : StoreCodec) (h : Intact sha256 F i start docs db) {commitment : DecisionCommitment}
    (hc : db.commitment? i.runId = some commitment) :
    ∃ material, loadCommitmentMaterial c db i.runId = .ok (some material) ∧
      material.storedSha256 = commitment.sha256 ∧ verifyMaterial sha256 F material = .ok commitment.sha256 ∧
      ∃ text ∈ docs, sha256 text = commitment.sha256 ∧
        (commitmentPayload material.run material.decisions material.snapshot).map (canonicalBytes F) = .ok text := by
  obtain ⟨hmem, hid⟩ := KeyedTable.find_some hc
  obtain ⟨r, hr⟩ := Option.isSome_iff_exists.mp (h.stored commitment hmem hid).2
  obtain ⟨material, hload, hsame, hanchor, text, hdoc, hsha, hbytes⟩ := (h.written commitment hc).loads c hr (h.row r hr) hc
  refine ⟨material, hload, hsame, ?_, text, hdoc, hsha, hbytes⟩
  have hanchors : (material.anchor.any fun anchor => decide (anchor.sha256 ≠ sha256 text)) = false := by
    rw [hanchor, hsha]
    cases ha : db.anchor? i.runId with
    | none => rfl
    | some a =>
      obtain ⟨stored, hstored, heq⟩ := h.anchored a ha
      rw [hc] at hstored
      cases hstored
      simp [heq]
  rw [verifyMaterial_of_bytes hbytes, hanchors, if_neg (not_not.mpr (hsha.trans hsame.symm)), hsha]
  rfl

/-- Tables with the same material of the run, a row that reads back and anchors of the commitment are intact. -/
theorem Intact.congr (h : Intact sha256 F i start docs db) (hrow : ∀ r ∈ db'.run? i.runId, RowKept i start r)
    (hstored : (db.run? i.runId).isSome → (db'.run? i.runId).isSome)
    (hcommitment : db'.commitment? i.runId = db.commitment? i.runId)
    (hcommitments : ∀ c ∈ db'.decisionCommitments, c.runId = i.runId → c ∈ db.decisionCommitments)
    (hdecisions : (db'.committeeDecisions.filter fun d => decide (d.runId = i.runId)) =
      db.committeeDecisions.filter fun d => decide (d.runId = i.runId))
    (hsnapshot : db'.snapshot? i.runId = db.snapshot? i.runId)
    (hanchors : ∀ a ∈ db'.anchor? i.runId, ∃ c ∈ db.commitment? i.runId, a.sha256 = c.sha256) :
    Intact sha256 F i start docs db' := by
  refine ⟨hrow, fun c hc hcid => ?_, fun hnone => ?_, fun c hc => ?_, fun a ha => ?_⟩
  · obtain ⟨hfind, hsome⟩ := h.stored c (hcommitments c hc hcid) hcid
    rw [hcommitment]
    exact ⟨hfind, hstored hsome⟩
  · rw [hcommitment] at hnone
    obtain ⟨hfresh, hunstored⟩ := h.unwritten hnone
    rw [filter_run_eq_nil hfresh, List.filter_eq_nil_iff] at hdecisions
    exact ⟨fun d hd => by simpa using hdecisions d hd, hsnapshot.trans hunstored⟩
  · rw [hcommitment] at hc
    rw [HoldsDocument, hdecisions, hsnapshot]
    exact h.written c hc
  · rw [hcommitment]
    exact hanchors a ha

/-- Tables that differ in other things than the material are intact if the row reads back. -/
theorem Intact.congr_row (h : Intact sha256 F i start docs db) (hrow : ∀ r ∈ db'.run? i.runId, RowKept i start r)
    (hstored : (db.run? i.runId).isSome → (db'.run? i.runId).isSome)
    (hcommitments : db'.decisionCommitments = db.decisionCommitments)
    (hdecisions : db'.committeeDecisions = db.committeeDecisions)
    (hsnapshots : db'.portfolioSnapshots = db.portfolioSnapshots)
    (hanchors : ∀ a ∈ db'.anchor? i.runId, ∃ c ∈ db.commitment? i.runId, a.sha256 = c.sha256) :
    Intact sha256 F i start docs db' := by
  refine h.congr hrow hstored (commitment?_congr hcommitments i.runId) (fun c hc _ => hcommitments ▸ hc)
    (by rw [hdecisions]) ?_ hanchors
  rw [RunTables.snapshot?, hsnapshots, RunTables.snapshot?]

/-! ### Flushes -/

/-- A row that is flushed over keeps the identity and the start it was created with. -/
theorem RowKept.flushed {s : StepArtifacts K V} {stored : Option (RunRow K)} (h : ∀ r ∈ stored, RowKept i start r)
    (hidentity : s.run.identity.utc = i.utc) (hstart : s.run.startedAt.instant = start) :
    RowKept i start (flushedRow stored s.run) := by
  have hrun : RowKept i start s.run.toRunRow :=
    ⟨hidentity, hstart, s.run.valid.1, fun ended hended => hstart ▸ s.run.valid.2 ended hended⟩
  cases stored with
  | none => exact hrun
  | some r =>
    have hr := h r rfl
    rw [flushedRow]
    split
    · exact ⟨hr.identity, hr.started, hrun.reason, hrun.ended⟩
    · exact hr

/-- The flush's own document. -/
theorem CommitsOwn.document {s : StepArtifacts K V} (h : CommitsOwn sha256 F i s) {c : DecisionCommitment}
    (hc : s.commitment = some c) :
    ∃ p text, s.portfolio = some p ∧ flushBytes F s p = .ok text ∧ sha256 text = c.sha256 := by
  obtain ⟨p, hp, hhash⟩ := h.committed c hc
  obtain ⟨payload, hpayload, hsha⟩ := Except.map_eq_ok.mp hhash
  exact ⟨p, canonicalBytes F payload, hp, by rw [flushBytes, hpayload, Except.map], hsha⟩

/-- Content that is presented again adds no rows. -/
theorem HoldsDocument.insert_nothing {digest : Sha256Hex} (h : HoldsDocument sha256 F i docs db digest) (hinj : Set.InjOn sha256 docs)
    {s : StepArtifacts K V} {p : PortfolioSnapshot K} {text : String} (htext : flushBytes F s p = .ok text)
    (hdoc : text ∈ docs) (hsha : sha256 text = digest) :
    KeyedTable.insertAll RunTables.decisionKey db.committeeDecisions (s.decisions.map decisionRow) =
        db.committeeDecisions ∧
      KeyedTable.insertAll PortfolioSnapshot.runId db.portfolioSnapshots [p] = db.portfolioSnapshots := by
  obtain ⟨run, decisions, snapshot, stored, hidentity, -, -, hstored, hstoredDoc, hstoredSha, hrows, hsnapshot⟩ := h
  obtain rfl : text = stored := hinj hdoc hstoredDoc (hsha.trans hstoredSha.symm)
  obtain ⟨-, hperm, hutc⟩ := commitmentBytes_inj F hstored htext
  constructor
  · refine KeyedTable.insertAll_of_forall_some fun r hr => ?_
    obtain ⟨d, hd, rfl⟩ := List.mem_map.mp hr
    obtain ⟨d', hd', hsame⟩ := List.mem_map.mp (hperm.subset (List.mem_map_of_mem hd))
    have hkey : RunTables.decisionKey (decisionRow d : DecisionRow K) = RunTables.decisionKey (decisionRow d') := by
      have hdecision : d'.decision.utc = d.decision.utc := congrArg CommitteeDecisionRecord.decision hsame
      have hkeyOf : ∀ x : CommitteeDecisionRecord K, RunTables.decisionKey (decisionRow x) =
          (x.decision.utc.runId, x.decision.utc.securityId, x.decision.utc.horizonDays) := fun _ => rfl
      rw [hkeyOf, hkeyOf, hdecision]
    have hmem : decisionRow d' ∈ db.committeeDecisions :=
      (List.mem_filter.mp (hrows.symm.subset (List.mem_map_of_mem hd'))).1
    rw [hkey]
    exact KeyedTable.find_isSome hmem
  · refine KeyedTable.insertAll_of_forall_some fun r hr => ?_
    obtain rfl := List.mem_singleton.mp hr
    have hrunId : r.utc.runId = snapshot.utc.runId := by rw [hutc]
    have hrun : snapshot.runId = i.runId := (KeyedTable.find_some hsnapshot).2
    simp only [PortfolioSnapshot.utc] at hrunId
    rw [hrunId, hrun]
    exact Option.isSome_iff_exists.mpr ⟨snapshot, hsnapshot⟩

theorem Intact.flush {s : StepArtifacts K V} (h : Intact sha256 F i start docs db) (hinj : Set.InjOn sha256 docs)
    (hF : Flushed sha256 json db s db') (hid : s.run.runId = i.runId) (hown : CommitsOwn sha256 F i s)
    (hrows : RowsFaithful i s) (hstart : s.run.startedAt.instant = start)
    (hdocs : ∀ p ∈ s.portfolio, ∀ text, flushBytes F s p = .ok text → text ∈ docs) :
    Intact sha256 F i start docs db' := by
  have hrun := hF.run? i.runId
  rw [if_pos hid.symm] at hrun
  have hrow : ∀ r ∈ db'.run? i.runId, RowKept i start r := by
    intro r hr
    rw [hrun] at hr
    cases hr
    exact RowKept.flushed h.row hown.identity hstart
  have hstored : (db'.run? i.runId).isSome := by rw [hrun]; rfl
  have hanchor : db'.anchor? i.runId = db.anchor? i.runId := by
    rw [RunTables.anchor?, hF.anchors, RunTables.anchor?]
  have hanchors : ∀ a ∈ db'.anchor? i.runId, ∃ c ∈ db.commitment? i.runId, a.sha256 = c.sha256 := by
    rw [hanchor]
    exact h.anchored
  cases hc : s.commitment with
  | none =>
    obtain ⟨hdecisions, hportfolio⟩ := hown.uncommitted hc
    refine h.congr_row hrow (fun _ => hstored) (hF.uncommitted hc) ?_ ?_ hanchors
    · rw [hF.decisions, hdecisions]
      rfl
    · rw [hF.snapshots, hportfolio]
      rfl
  | some c =>
    obtain ⟨p, text, hp, htext, hsha⟩ := hown.document hc
    have hcid : c.runId = i.runId := (s.commitment_run c hc).trans hid
    have hdecisionRun : ∀ d ∈ s.decisions, d.decision.runId = i.runId := fun d hd => (s.decisions_run d hd).trans hid
    have hdoc := hdocs p hp text htext
    have hsnapshots := hF.snapshots
    rw [hp, Option.toList_some] at hsnapshots
    rcases hF.commitments c hc with ⟨hnone, hcommitments⟩ | ⟨stored, hfound, hsame, hcommitments⟩
    · -- the first commitment finds no rows of the run
      rw [hcid] at hnone
      obtain ⟨hfresh, hunstored⟩ := h.unwritten hnone
      have hfound : db'.commitment? i.runId = some c := by
        rw [RunTables.commitment?, hcommitments, KeyedTable.find_append,
          show KeyedTable.find DecisionCommitment.runId db.decisionCommitments i.runId = none from hnone, Option.none_or,
          KeyedTable.find_cons, if_pos hcid]
      refine ⟨hrow, fun c' hc' hcid' => ?_, fun hnone' => ?_, fun c' hc' => ?_, fun a ha => ?_⟩
      · refine ⟨?_, hstored⟩
        rw [hcommitments] at hc'
        rcases List.mem_append.mp hc' with hc' | hc'
        · rw [(h.stored c' hc' hcid').1] at hnone
          cases hnone
        · rw [List.mem_singleton.mp hc', hfound]
      · rw [hfound] at hnone'
        cases hnone'
      · rw [hfound] at hc'
        cases hc'
        refine ⟨s.run, s.decisions, p, text, hown.identity, hrows.keys, hrows.asOf, htext, hdoc, hsha, ?_, ?_⟩
        · rw [hF.decisions, rows_inserted hfresh hrows.keys hdecisionRun]
        · rw [RunTables.snapshot?, hsnapshots, KeyedTable.find_insertAll,
            show KeyedTable.find PortfolioSnapshot.runId db.portfolioSnapshots i.runId = none from hunstored,
            Option.none_or, KeyedTable.find_cons, if_pos ((s.portfolio_run p hp).trans hid)]
      · rw [hanchor] at ha
        obtain ⟨c', hc', -⟩ := h.anchored a ha
        rw [hnone] at hc'
        cases hc'
    · -- the same digest is of the same content
      rw [hcid] at hfound
      obtain ⟨hdecisions, hsnapshots'⟩ :=
        (h.written stored hfound).insert_nothing hinj htext hdoc (hsha.trans hsame.symm)
      exact h.congr_row hrow (fun _ => hstored) hcommitments (hF.decisions.trans hdecisions)
        (hsnapshots.trans hsnapshots') hanchors

/-! ### Every operation -/

/-- An anchor row of a run has the digest that the run's row had before, or that of a commitment. -/
theorem upsertAnchor_anchor? {a a' : CommitmentAnchor} {id : UUID} (h : upsertAnchor db a = .ok db')
    (ha' : db'.anchor? id = some a') :
    (∃ stored, db.anchor? id = some stored ∧ a'.sha256 = stored.sha256) ∨
      ∃ c ∈ db.decisionCommitments, c.runId = id ∧ a'.sha256 = c.sha256 := by
  unfold upsertAnchor at h
  cases hfound : db.anchor? a.runId with
  | none =>
    simp only [hfound] at h
    split at h
    · next hany =>
      cases h
      simp only [RunTables.anchor?, KeyedTable.find_append] at ha'
      rcases Option.or_eq_some_iff.mp ha' with ha' | ⟨-, ha'⟩
      · exact Or.inl ⟨a', ha', rfl⟩
      · obtain ⟨hmem, hid⟩ := KeyedTable.find_some ha'
        obtain rfl := List.mem_singleton.mp hmem
        obtain ⟨c, hc, hsame⟩ := List.any_eq_true.mp hany
        simp only [Bool.and_eq_true, decide_eq_true_eq] at hsame
        exact Or.inr ⟨c, hc, hsame.1.trans hid, hsame.2.symm⟩
    · cases h
  | some stored =>
    simp only [hfound] at h
    split at h
    · cases h
      have hkey : ∀ r, (upgradeAnchor a r).runId = r.runId := fun _ => rfl
      simp only [RunTables.anchor?, KeyedTable.find_modify hkey] at ha'
      split at ha'
      · obtain ⟨r, hr, rfl⟩ := Option.map_eq_some_iff.mp ha'
        exact Or.inl ⟨r, hr, rfl⟩
      · exact Or.inl ⟨a', ha', rfl⟩
    · cases h

theorem Intact.anchor {a : CommitmentAnchor} (h : Intact sha256 F i start docs db) (ha : upsertAnchor db a = .ok db') :
    Intact sha256 F i start docs db' := by
  have hframe := upsertAnchor_eq_ok ha
  have hrun : db'.run? i.runId = db.run? i.runId := by
    rw [hframe]
    rfl
  refine h.congr_row (hrun ▸ h.row) (fun hsome => hrun ▸ hsome) (by rw [hframe]) (by rw [hframe]) (by rw [hframe]) ?_
  intro a' ha'
  rcases upsertAnchor_anchor? ha ha' with ⟨stored, hstored, hsame⟩ | ⟨c, hc, hid, hsame⟩
  · obtain ⟨c, hc, hsha⟩ := h.anchored stored hstored
    exact ⟨c, hc, hsame.trans hsha⟩
  · exact ⟨c, (h.stored c hc hid).1, hsame⟩

/-- A conditional update that keeps rows readable leaves the tables intact. -/
theorem Intact.update {id : UUID} {p : RunRow K → Bool} {set : RunRow K → RunRow K} (h : Intact sha256 F i start docs db)
    (hrun : ∀ k, db'.run? k = if k = id then (db.run? k).map fun r => if p r then set r else r else db.run? k)
    (hset : id = i.runId → ∀ r, RowKept i start r → RowKept i start (set r))
    (hframe : db' = { db with
      runs := db'.runs, killSwitchEvents := db'.killSwitchEvents, haltReferenceRequests := db'.haltReferenceRequests }) :
    Intact sha256 F i start docs db' := by
  have hanchor : db'.anchor? i.runId = db.anchor? i.runId := by
    rw [hframe]
    rfl
  refine h.congr_row (fun r hr => ?_) (fun hsome => ?_) (by rw [hframe]) (by rw [hframe]) (by rw [hframe])
    (hanchor ▸ h.anchored)
  · rw [hrun] at hr
    split at hr
    · next hid =>
      obtain ⟨stored, hstored, rfl⟩ := Option.map_eq_some_iff.mp hr
      split
      · exact hset hid.symm stored (h.row stored hstored)
      · exact h.row stored hstored
    · exact h.row r hr
  · rw [hrun]
    split
    · rwa [Option.isSome_map]
    · exact hsome

/-- A flush of another run adds no row of this one. -/
theorem Intact.flush_other {s : StepArtifacts K V} (h : Intact sha256 F i start docs db)
    (hF : Flushed sha256 json db s db') (hid : s.run.runId ≠ i.runId) : Intact sha256 F i start docs db' := by
  have hrun : db'.run? i.runId = db.run? i.runId := (hF.run? i.runId).trans (if_neg hid.symm)
  have hanchor : db'.anchor? i.runId = db.anchor? i.runId := by
    rw [RunTables.anchor?, hF.anchors, RunTables.anchor?]
  have hcommitments : db'.decisionCommitments = db.decisionCommitments ∨
      ∃ c, c.runId ≠ i.runId ∧ db'.decisionCommitments = db.decisionCommitments ++ [c] := by
    cases hc : s.commitment with
    | none => exact Or.inl (hF.uncommitted hc)
    | some c =>
      have hcid : c.runId ≠ i.runId := fun heq => hid ((s.commitment_run c hc).symm.trans heq)
      rcases hF.commitments c hc with ⟨-, hnew⟩ | ⟨_, -, -, hsame⟩
      · exact Or.inr ⟨c, hcid, hnew⟩
      · exact Or.inl hsame
  refine h.congr (hrun ▸ h.row) (fun hsome => hrun ▸ hsome) ?_ ?_ ?_ ?_ (hanchor ▸ h.anchored)
  · rcases hcommitments with hsame | ⟨c, hcid, hnew⟩
    · exact commitment?_congr hsame i.runId
    · rw [RunTables.commitment?, hnew, KeyedTable.find_append, KeyedTable.find_cons, if_neg hcid]
      exact Option.or_none
  · intro c hc hcid
    rcases hcommitments with hsame | ⟨c', hcid', hnew⟩
    · exact hsame ▸ hc
    · rw [hnew] at hc
      rcases List.mem_append.mp hc with hc | hc
      · exact hc
      · exact absurd (List.mem_singleton.mp hc ▸ hcid) hcid'
  · rw [hF.decisions]
    refine KeyedTable.filter_insertAll fun r hr => ?_
    obtain ⟨d, hd, rfl⟩ := List.mem_map.mp hr
    exact decide_eq_false fun heq => hid ((s.decisions_run d hd).symm.trans heq)
  · have hnone : KeyedTable.find PortfolioSnapshot.runId s.portfolio.toList i.runId = none :=
      KeyedTable.find_eq_none.mpr fun p hp heq => hid ((s.portfolio_run p (Option.mem_toList.mp hp)).symm.trans heq)
    rw [RunTables.snapshot?, hF.snapshots, KeyedTable.find_insertAll, hnone, Option.or_none, RunTables.snapshot?]

theorem Intact.reset {id : UUID} (h : Intact sha256 F i start docs db) (hR : WasReset db id db') :
    Intact sha256 F i start docs db' := by
  have hrow : ∀ r ∈ db'.run? i.runId, RowKept i start r := by
    intro r hr
    rw [hR.run?] at hr
    split at hr
    · obtain ⟨stored, hstored, rfl⟩ := Option.map_eq_some_iff.mp hr
      have hkept := h.row stored hstored
      exact ⟨hkept.identity, hkept.started, fun _ hx => absurd hx (Option.not_mem_none _),
        fun _ hx => absurd hx (Option.not_mem_none _)⟩
    · exact h.row r hr
  have hstored : (db.run? i.runId).isSome → (db'.run? i.runId).isSome := by
    intro hsome
    rw [hR.run?]
    split
    · rwa [Option.isSome_map]
    · exact hsome
  have hanchor : db'.anchor? i.runId = db.anchor? i.runId := by
    rw [RunTables.anchor?, hR.anchors, RunTables.anchor?]
  by_cases hid : i.runId = id
  · -- the run had no commitment, and keeps no rows
    subst hid
    have hnone : db'.commitment? i.runId = none := by
      rw [commitment?_congr hR.commitments]
      exact KeyedTable.find_eq_none.mpr hR.uncommitted
    refine ⟨hrow, fun c hc hcid => ?_, fun _ => ⟨fun d hd => ?_, ?_⟩, fun c hc => ?_, fun a ha => ?_⟩
    · rw [hR.commitments] at hc
      exact absurd hcid (hR.uncommitted c hc)
    · rw [hR.decisions] at hd
      simpa using (List.mem_filter.mp hd).2
    · rw [RunTables.snapshot?, hR.snapshots]
      refine KeyedTable.find_eq_none.mpr fun p hp => ?_
      simpa using (List.mem_filter.mp hp).2
    · rw [hnone] at hc
      cases hc
    · rw [hanchor] at ha
      obtain ⟨hmem, haid⟩ := KeyedTable.find_some ha
      exact absurd haid (hR.unanchored a hmem)
  · refine h.congr hrow hstored (commitment?_congr hR.commitments i.runId) (fun c hc _ => hR.commitments ▸ hc) ?_ ?_
      (hanchor ▸ h.anchored)
    · rw [hR.decisions, List.filter_filter]
      refine List.filter_congr fun d _ => ?_
      by_cases hd : d.runId = i.runId <;> simp [hd, hid]
    · rw [RunTables.snapshot?, hR.snapshots]
      exact KeyedTable.find_filter fun p _ hp => by simp [hp, hid]

theorem length_haltReason (trigger : KillTrigger) : (haltReason trigger).length ≤ 1000 := by
  cases trigger <;> decide

theorem Intact.step {op : Op K V} (h : Intact sha256 F i start docs db) (hinj : Set.InjOn sha256 docs)
    (hop : OpFaithful sha256 F i start op)
    (hdocs : ∀ s, op = .flushStep s → s.run.runId = i.runId → ∀ p ∈ s.portfolio, ∀ text, flushBytes F s p = .ok text →
      text ∈ docs) : Intact sha256 F i start docs (step sha256 json db op) := by
  unfold Sink.step
  cases hp : perform sha256 json db op with
  | error e => exact h
  | ok db' =>
    cases op with
    | flushStep s =>
      have hF := flushStep_eq_ok hp
      by_cases hid : s.run.runId = i.runId
      · obtain ⟨hown, hrows, hstart⟩ := hop hid
        exact h.flush hinj hF hid hown hrows hstart (hdocs s rfl hid)
      · exact h.flush_other hF hid
    | recordAnchor a => exact h.anchor hp
    | markAnchored a =>
      obtain ⟨⟨db₂, moved⟩, hx, rfl⟩ := Except.map_eq_ok.mp hp
      obtain ⟨db₁, h₁, rfl⟩ := advanceToAnchored_eq_ok hx
      exact (h.anchor h₁).update (run?_updateRun db₁ a.runId _ fun _ => rfl)
        (fun _ r hr => ⟨hr.identity, hr.started, hr.reason, hr.ended⟩) rfl
    | markExecuted id endedAt =>
      cases hp
      refine h.update (run?_updateRun db id _ fun _ => rfl) (fun hid r hr => ?_) rfl
      refine ⟨hr.identity, hr.started, fun _ hreason => absurd hreason (Option.not_mem_none _), fun ended hended => ?_⟩
      cases hended
      exact hop hid
    | recordHalt e =>
      obtain ⟨⟨db₂, moved⟩, hx, rfl⟩ := Except.map_eq_ok.mp hp
      have hH := recordHalt_eq_ok hx
      have hrun : ∀ id, db₂.run? id = if id = e.runId then (db.run? id).map fun r => if decide (r.status ∈ haltable) then
          { r with status := .partialRun, statusReason := some (haltReason e.trigger), endedAt := some e.triggeredAt }
        else r else db.run? id := by
        simpa only [decide_eq_true_eq] using hH.run?
      refine h.update hrun (fun hid r hr => ?_) hH.frame
      refine ⟨hr.identity, hr.started, fun reason hreason => ?_, fun ended hended => ?_⟩
      · cases hreason
        exact length_haltReason e.trigger
      · cases hended
        exact hop hid
    | resetRun id actor reason now => exact h.reset (resetRun_eq_ok hp)

/-! ### Sequences of operations -/

/-- Tables in which nothing of the run is stored but, it may be, its row. -/
structure Unwritten (i : RunIdentity) (start : Int) (db : RunTables K V) : Prop where
  row : ∀ r ∈ db.run? i.runId, RowKept i start r
  decisions : ∀ d ∈ db.committeeDecisions, d.runId ≠ i.runId
  snapshots : ∀ p ∈ db.portfolioSnapshots, p.runId ≠ i.runId
  commitments : ∀ c ∈ db.decisionCommitments, c.runId ≠ i.runId
  anchors : ∀ a ∈ db.commitmentAnchors, a.runId ≠ i.runId

theorem Unwritten.intact (h : Unwritten i start db) : Intact sha256 F i start docs db where
  row := h.row
  stored c hc hcid := absurd hcid (h.commitments c hc)
  unwritten _ := ⟨h.decisions, KeyedTable.find_eq_none.mpr h.snapshots⟩
  written c hc := absurd (KeyedTable.find_some hc).2 (h.commitments c (KeyedTable.find_some hc).1)
  anchored a ha := absurd (KeyedTable.find_some ha).2 (h.anchors a (KeyedTable.find_some ha).1)

theorem Intact.run {ops : List (Op K V)} (h : Intact sha256 F i start docs db) (hinj : Set.InjOn sha256 docs)
    (hops : ∀ op ∈ ops, OpFaithful sha256 F i start op) (hdocs : documents F i ops ⊆ docs) :
    Intact sha256 F i start docs (run sha256 json db ops) := by
  induction ops using List.reverseRecOn with
  | nil => exact h
  | append_singleton ops op ih =>
    rw [run_concat]
    refine (ih (fun x hx => hops x (List.mem_append_left _ hx)) fun text ⟨s, hs, hrest⟩ =>
      hdocs ⟨s, List.mem_append_left _ hs, hrest⟩).step hinj (hops op (List.mem_append_right _ List.mem_cons_self)) ?_
    rintro s rfl hid p hp text htext
    exact hdocs ⟨s, List.mem_append_right _ List.mem_cons_self, hid, p, hp, htext⟩

/-- In every state that operations on a run lead to, a stored commitment is recomputed from what is read back, and
    a flush that commits other content is refused and rolled back. The flushes commit their own content, with the
    run's decision time on every decision and no key twice, no end of the run is dated before its start, and no two
    of the documents have the same digest. -/
theorem committed_verifies (c : StoreCodec) {ops : List (Op K V)} (hstart : Unwritten i start db)
    (hops : ∀ op ∈ ops, OpFaithful sha256 F i start op) (hinj : Set.InjOn sha256 (documents F i ops)) :
    ∀ commitment ∈ (run sha256 json db ops).commitment? i.runId,
      ∃ material, loadCommitmentMaterial c (run sha256 json db ops) i.runId = .ok (some material) ∧
        material.storedSha256 = commitment.sha256 ∧ verifyMaterial sha256 F material = .ok commitment.sha256 ∧
        ∀ s : StepArtifacts K V, s.run.runId = i.runId → CommitsOwn sha256 F i s →
          Set.InjOn sha256 (documents F i (.flushStep s :: ops)) → ∀ p ∈ s.portfolio,
          flushBytes F s p ≠ (commitmentPayload material.run material.decisions material.snapshot).map (canonicalBytes F) →
          (∃ e, perform sha256 json (run sha256 json db ops) (.flushStep s) = .error e) ∧
            step sha256 json (run sha256 json db ops) (.flushStep s) = run sha256 json db ops := by
  intro commitment hc
  have hintact : Intact sha256 F i start (documents F i ops) (run sha256 json db ops) :=
    hstart.intact.run hinj hops subset_rfl
  obtain ⟨material, hload, hsame, hverify, text, ⟨x, hx, hrest⟩, hsha, hbytes⟩ := hintact.loads c hc
  refine ⟨material, hload, hsame, hverify, fun s hid hown hinj' p hp hdiffers => ?_⟩
  have hrefused : ∃ e, perform sha256 json (run sha256 json db ops) (.flushStep s) = .error e := by
    cases hperform : perform sha256 json (run sha256 json db ops) (.flushStep s) with
    | error e => exact ⟨e, rfl⟩
    | ok db' =>
      cases hnew : s.commitment with
      | none =>
        rw [(hown.uncommitted hnew).2] at hp
        cases hp
      | some c' =>
        -- the stored digest is the flush's, so the documents are the same
        obtain ⟨p', text', hp', htext', hsha'⟩ := hown.document hnew
        rw [hp'] at hp
        cases hp
        have hcid : c'.runId = i.runId := (s.commitment_run c' hnew).trans hid
        rcases (flushStep_eq_ok hperform).commitments c' hnew with ⟨hnone, -⟩ | ⟨stored, hstored, heq, -⟩
        · rw [hcid, hc] at hnone
          cases hnone
        · rw [hcid, hc] at hstored
          cases hstored
          have hdoc : text ∈ documents F i (.flushStep s :: ops) := ⟨x, List.mem_cons_of_mem _ hx, hrest⟩
          have hdoc' : text' ∈ documents F i (.flushStep s :: ops) := ⟨s, List.mem_cons_self, hid, p, hp', htext'⟩
          obtain rfl := hinj' hdoc' hdoc (hsha'.trans (heq.symm.trans hsha.symm))
          exact absurd (htext'.trans hbytes.symm) hdiffers
  obtain ⟨e, he⟩ := hrefused
  exact ⟨⟨e, he⟩, by rw [step, he]⟩

/-! ### A decision dated otherwise -/

/-- A decision of run 1 dated at another instant than the run. -/
def datedDecision (instant : Int) : CommitteeDecisionRecord ℚ :=
  let d := decisionAt ⟨1, Samples.one_securityId⟩ .d5
  { d with decision := { d.decision with asOf := ⟨instant, 0⟩ } }

/-- The document of run 1 with that decision. -/
def datedText (instant : Int) : String :=
  canonicalBytes decimalText ((runAt .committed).identity.payload [datedDecision instant] cashSnapshot)

theorem commitmentPayload_dated (instant : Int) :
    commitmentPayload (runAt .committed) [datedDecision instant] cashSnapshot =
      .ok ((runAt .committed).identity.payload [datedDecision instant] cashSnapshot) := by
  refine commitmentPayload_eq_ok.mpr ⟨rfl, fun d hd => ?_, rfl⟩
  rw [List.mem_singleton.mp hd]
  rfl

theorem datedText_bytes (instant : Int) :
    (commitmentPayload (runAt .committed) [datedDecision instant] cashSnapshot).map (canonicalBytes decimalText) =
      .ok (datedText instant) := by
  rw [commitmentPayload_dated, Except.map, datedText]

theorem datedText_ne : datedText 0 ≠ datedText 1 := by
  intro h
  have hsame := datedText_bytes 1
  rw [← h] at hsame
  obtain ⟨-, hperm, -⟩ := commitmentBytes_inj decimalText (datedText_bytes 0) hsame
  have hdates := (hperm.map fun d => d.decision.asOf.instant).subset List.mem_cons_self
  simp [datedDecision, CommitteeDecisionRecord.utc, CommitteeDecision.utc, AwareDatetime.utc] at hdates

/-- A digest that tells the document of the later date from every other. -/
def laterDigest (text : String) : Sha256Hex := if text = datedText 1 then zeroHex else onesHex

/-- The flush that commits run 1 with the decision. -/
def datedStep (instant : Int) : StepArtifacts ℚ Unit where
  run := runAt .committed
  verdicts := []
  decisions := [datedDecision instant]
  portfolio := some cashSnapshot
  commitment := some ⟨⟨1⟩, laterDigest (datedText instant), ⟨0, 0⟩⟩
  dlq := []
  killSwitch := []
  verdicts_run _ hv := absurd hv List.not_mem_nil
  decisions_run d hd := by rw [List.mem_singleton.mp hd]; rfl
  portfolio_run p hp := by cases hp; rfl
  commitment_run c hc := by cases hc; rfl
  dlq_run _ hd := absurd hd List.not_mem_nil
  killSwitch_run _ he := absurd he List.not_mem_nil

/-- Tables that know security 1. -/
def oneSecurity : RunTables ℚ Unit := { noTables with securities := [⟨1, Samples.one_securityId⟩] }

theorem commitsOwn_datedStep (instant : Int) :
    CommitsOwn laterDigest decimalText (runAt .committed).identity (datedStep instant) where
  identity := rfl
  uncommitted h := nomatch h
  committed c hc := by
    cases hc
    refine ⟨cashSnapshot, rfl, ?_⟩
    show commitmentHash laterDigest decimalText (runAt .committed) [datedDecision instant] cashSnapshot = _
    rw [commitmentHash, commitmentPayload_dated, Except.map, datedText]

/-- The tables after the flush. -/
theorem flushStep_datedStep (instant : Int) :
    flushStep laterDigest noJson oneSecurity (datedStep instant) = .ok { oneSecurity with
      runs := [(runAt .committed).toRunRow], committeeDecisions := [decisionRow (datedDecision instant)],
      portfolioSnapshots := [cashSnapshot],
      decisionCommitments := [⟨⟨1⟩, laterDigest (datedText instant), ⟨0, 0⟩⟩] } := by
  rfl

/-- A decision dated after its run is committed by its own digest, and what is stored of it does not verify: the row
    has no date of its own. -/
theorem foreign_asOf_unverified :
    CommitsOwn laterDigest decimalText (runAt .committed).identity (datedStep 1) ∧
      ∃ commitment material,
        (run laterDigest noJson oneSecurity [.flushStep (datedStep 1)]).commitment? ⟨1⟩ = some commitment ∧
        loadCommitmentMaterial utcCodec (run laterDigest noJson oneSecurity [.flushStep (datedStep 1)]) ⟨1⟩ =
          .ok (some material) ∧
        verifyMaterial laterDigest decimalText material = .error .mismatch := by
  refine ⟨commitsOwn_datedStep 1, ⟨⟨1⟩, laterDigest (datedText 1), ⟨0, 0⟩⟩, ?_⟩
  have hrun : run laterDigest noJson oneSecurity [.flushStep (datedStep 1)] = { oneSecurity with
      runs := [(runAt .committed).toRunRow], committeeDecisions := [decisionRow (datedDecision 1)],
      portfolioSnapshots := [cashSnapshot],
      decisionCommitments := [⟨⟨1⟩, laterDigest (datedText 1), ⟨0, 0⟩⟩] } := by
    rw [run, List.foldl_cons, List.foldl_nil, step, perform, flushStep_datedStep]
  rw [hrun]
  -- the stored row is that of the decision dated with the run
  have hholds : HoldsDocument laterDigest decimalText (runAt .committed).identity {datedText 0} { oneSecurity with
      runs := [(runAt .committed).toRunRow], committeeDecisions := [decisionRow (datedDecision 1)],
      portfolioSnapshots := [cashSnapshot],
      decisionCommitments := [⟨⟨1⟩, laterDigest (datedText 1), ⟨0, 0⟩⟩] } onesHex := by
    refine ⟨runAt .committed, [datedDecision 0], cashSnapshot, datedText 0, rfl, List.nodup_singleton _, ?_,
      datedText_bytes 0, rfl, if_neg datedText_ne, List.Perm.refl _, rfl⟩
    intro d hd
    rw [List.mem_singleton.mp hd]
    rfl
  have hkept : RowKept (runAt .committed).identity 0 (runAt .committed).toRunRow :=
    ⟨rfl, rfl, (runAt .committed).valid.1, (runAt .committed).valid.2⟩
  obtain ⟨material, hload, hsame, -, text, rfl, -, hbytes⟩ := hholds.loads utcCodec rfl hkept rfl
  refine ⟨material, rfl, hload, ?_⟩
  have hne : laterDigest (datedText 0) ≠ material.storedSha256 := by
    rw [hsame]
    simp only [laterDigest, if_neg datedText_ne, if_true]
    decide
  rw [verifyMaterial_of_bytes hbytes, if_pos hne]

/-- Dated with its run, it verifies. -/
theorem committed_verifies_dated :
    ∃ material, loadCommitmentMaterial utcCodec (run laterDigest noJson oneSecurity [.flushStep (datedStep 0)]) ⟨1⟩ =
        .ok (some material) ∧
      verifyMaterial laterDigest decimalText material = .ok (laterDigest (datedText 0)) := by
  have hunwritten : Unwritten (runAt .committed).identity 0 oneSecurity :=
    ⟨fun r h => absurd h (Option.not_mem_none r), fun _ h => absurd h List.not_mem_nil,
      fun _ h => absurd h List.not_mem_nil, fun _ h => absurd h List.not_mem_nil,
      fun _ h => absurd h List.not_mem_nil⟩
  have hfaithful : ∀ op ∈ [Op.flushStep (datedStep 0)],
      OpFaithful laterDigest decimalText (runAt .committed).identity 0 op := by
    intro op hop
    rw [List.mem_singleton.mp hop]
    refine fun _ => ⟨commitsOwn_datedStep 0, ⟨List.nodup_singleton _, fun d hd => ?_⟩, rfl⟩
    rw [List.mem_singleton.mp hd]
    rfl
  have hdocuments : ∀ text ∈ documents decimalText (runAt .committed).identity [Op.flushStep (datedStep 0)],
      text = datedText 0 := by
    rintro text ⟨s, hs, -, p, hp, htext⟩
    have hsame : s = datedStep 0 := Op.flushStep.inj (List.mem_singleton.mp hs)
    rw [hsame] at hp htext
    rw [← Option.some.inj hp] at htext
    have hbytes : flushBytes decimalText (datedStep 0) cashSnapshot = .ok (datedText 0) := datedText_bytes 0
    rw [hbytes] at htext
    exact (Except.ok.inj htext).symm
  have hinj : Set.InjOn laterDigest (documents decimalText (runAt .committed).identity [Op.flushStep (datedStep 0)]) :=
    fun t ht t' ht' _ => (hdocuments t ht).trans (hdocuments t' ht').symm
  have hcommitment : (run laterDigest noJson oneSecurity [.flushStep (datedStep 0)]).commitment?
      (runAt .committed).identity.runId = some ⟨⟨1⟩, laterDigest (datedText 0), ⟨0, 0⟩⟩ := by
    rw [run, List.foldl_cons, List.foldl_nil, step, perform, flushStep_datedStep]
    rfl
  obtain ⟨material, hload, -, hverify, -⟩ := @committed_verifies ℚ Unit _ _ laterDigest noJson oneSecurity decimalText
    (runAt .committed).identity 0 utcCodec [.flushStep (datedStep 0)] hunwritten hfaithful hinj _ hcommitment
  dsimp only at hverify
  exact ⟨material, hload, hverify⟩

end Sink
end AsymmetricCommittee
