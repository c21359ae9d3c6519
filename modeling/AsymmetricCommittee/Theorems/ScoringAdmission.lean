import AsymmetricCommittee.Evaluation.Scorable
import AsymmetricCommittee.Contracts.Samples
import AsymmetricCommittee.Lib.Checks
import AsymmetricCommittee.Theorems.CanonicalCommitment
import AsymmetricCommittee.Theorems.ProofUpgrades

/-! What an admission to scoring has seen, which of the checks a refusal names, and when outcomes are loaded. The checks
    are stated about the evidence itself: each can fail whatever became of the others. -/

namespace AsymmetricCommittee
namespace Scorable
open Anchoring Checks OpenTimestamps

section Spec
variable {K O Header σ : Type} [Field K] [LinearOrder K] (s : Sources K O Header σ) (request : ScoringRequest)

/-- The documented precedence of the refusals. -/
def precedence : List RefusalReason :=
  [.runMissing, .noCommitment, .notScorableStatus, .haltEvidenceMissing, .materialIncomplete, .commitmentMismatch,
    .anchorMissing, .anchorInvalid, .otsNotConfirmed, .headerVerificationFailed, .gitUnreachable, .anchorTiming]

/-- The stored rows recompute to the digest. -/
def Recomputes (evidence : ScoringEvidence K) (digest : Sha256Hex) : Prop :=
  ∃ run snapshot, evidence.run = some run ∧ evidence.snapshot = some snapshot ∧
    commitmentHash s.sha256 s.floatText run evidence.decisions snapshot = .ok digest

/-- The verification of a proof by the header source. -/
def confirmed (proof : Bytes) (digest : Sha256Hex) : Except AnchorError BitcoinConfirmation :=
  match (confirmBitcoin s.ots proof digest s.headers).run s.state with
  | .error e => .error e
  | .ok (confirmation, _) => .ok confirmation

/-- Commitment, anchor and block in time, and a live run's block before the earliest resolution asked for. -/
structure InTime (run : RunRecord K) (commitment : DecisionCommitment) (anchor : CommitmentAnchor) (blockTime : Int)
    (now : AwareDatetime) : Prop where
  committed : commitment.committedAt.instant ≤ anchor.anchoredAt.instant
  anchored : anchor.anchoredAt.instant ≤ now.instant
  block : blockInstant blockTime ≤ now.instant
  live : run.mode = .live → ∃ earliest, request.earliestResolutionAt = some (.aware earliest) ∧
    blockInstant blockTime < earliest.instant

/-- A check fails on what was fetched. -/
def Fails : RefusalReason → Prop
  | .runMissing => ∃ ev, s.load request.runId = .ok ev ∧ ev.run = none
  | .noCommitment => ∃ ev, s.load request.runId = .ok ev ∧ ev.commitment = none
  | .notScorableStatus => ∃ ev run, s.load request.runId = .ok ev ∧ ev.run = some run ∧
      run.status ∉ completeStatuses run.mode ∧ stoppedByHalt run = false
  | .haltEvidenceMissing => ∃ ev run, s.load request.runId = .ok ev ∧ ev.run = some run ∧
      run.status ∉ completeStatuses run.mode ∧ stoppedByHalt run = true ∧ ev.killSwitchEvents = []
  | .materialIncomplete => ∃ ev, s.load request.runId = .ok ev ∧ (ev.defects ≠ [] ∨ ev.snapshot = none)
  | .commitmentMismatch => ∃ ev commitment, s.load request.runId = .ok ev ∧ ev.commitment = some commitment ∧
      ¬Recomputes s ev commitment.sha256
  | .anchorMissing => ∃ ev, s.load request.runId = .ok ev ∧
      ∀ anchor, ev.anchor = some anchor → anchor.otsProof = none ∨ anchor.gitCommit = none
  | .anchorInvalid => ∃ ev digest anchor proof, s.load request.runId = .ok ev ∧ Recomputes s ev digest ∧
      ev.anchor = some anchor ∧ anchor.otsProof = some proof ∧
      (anchor.sha256 ≠ digest ∨ ∀ status, checkBinding s.ots proof digest ≠ .ok status)
  | .otsNotConfirmed => ∃ ev digest anchor proof status, s.load request.runId = .ok ev ∧ Recomputes s ev digest ∧
      ev.anchor = some anchor ∧ anchor.otsProof = some proof ∧ checkBinding s.ots proof digest = .ok status ∧
      status.bitcoinHeights = []
  | .headerVerificationFailed => ∃ ev digest anchor proof defect, s.load request.runId = .ok ev ∧
      Recomputes s ev digest ∧ ev.anchor = some anchor ∧ anchor.otsProof = some proof ∧
      confirmed s proof digest = .error (.binding defect)
  | .gitUnreachable => ∃ ev anchor commit, s.load request.runId = .ok ev ∧ ev.anchor = some anchor ∧
      anchor.gitCommit = some commit ∧ s.isReachable commit = .ok false
  | .anchorTiming => ∃ ev run commitment digest anchor proof confirmation now, s.load request.runId = .ok ev ∧
      ev.run = some run ∧ ev.commitment = some commitment ∧ Recomputes s ev digest ∧ ev.anchor = some anchor ∧
      anchor.otsProof = some proof ∧ confirmed s proof digest = .ok confirmation ∧ s.clock = .ok (.aware now) ∧
      ¬InTime request run commitment anchor confirmation.blockTime now
  | .evidenceUnavailable => False

/-- What a check needs could not be fetched. -/
def Unavailable : RefusalReason → Prop
  | .runMissing => s.load request.runId = .error ()
  | .headerVerificationFailed => ∃ ev digest anchor proof e, s.load request.runId = .ok ev ∧ Recomputes s ev digest ∧
      ev.anchor = some anchor ∧ anchor.otsProof = some proof ∧ confirmed s proof digest = .error e ∧
      ∀ defect, e ≠ .binding defect
  | .gitUnreachable => ∃ ev anchor commit, s.load request.runId = .ok ev ∧ ev.anchor = some anchor ∧
      anchor.gitCommit = some commit ∧ s.isReachable commit = .error ()
  | _ => False

def Blocked (check : RefusalReason) : Prop := Fails s request check ∨ Unavailable s request check

/-- The error names the check that fails, or says that its evidence could not be fetched. -/
def Names (e : AdmitError) (check : RefusalReason) : Prop :=
  (∃ completeness, e = .refused check completeness ∧ Fails s request check) ∨
    ∃ completeness, e = .refused .evidenceUnavailable completeness ∧ Unavailable s request check

/-- Not a refusal. -/
def Stray (e : AdmitError) : Prop := ∀ reason completeness, e ≠ .refused reason completeness

/-- A block of the source's chain attests the digest. -/
def Attested (proof : Bytes) (digest : Sha256Hex) (height : Nat) (blockTime : Int) : Prop :=
  ∃ file msg header before after, s.ots.deserialize proof = some file ∧ file.fileHashOp = .sha256 ∧
    file.fileDigest = fromHex digest.val.toList ∧ file.timestamp.msg = fromHex digest.val.toList ∧
    (msg, .bitcoin height) ∈ s.ots.allAttestations file.timestamp ∧ (s.headers height).run before = .ok (header, after) ∧
    s.ots.verifyAgainstBlockheader height msg header = some blockTime

/-- What a ticket was given for. -/
structure Admitted (ticket : ScoringTicket) (ev : ScoringEvidence K) (run : RunRecord K) (commitment : DecisionCommitment)
    (anchor : CommitmentAnchor) (proof : Bytes) : Prop where
  loaded : s.load request.runId = .ok ev
  hasRun : ev.run = some run
  hasCommitment : ev.commitment = some commitment
  hasAnchor : ev.anchor = some anchor
  hasProof : anchor.otsProof = some proof
  hasCommit : anchor.gitCommit = some ticket.gitCommit
  identity : ticket.runId = request.runId ∧ ticket.mode = run.mode
  completeness : (run.status ∈ completeStatuses run.mode ∧ ticket.completeness = .complete) ∨
    (run.status = .partialRun ∧ run.statusReason.any isHaltReason ∧ ev.killSwitchEvents ≠ [] ∧
      ticket.completeness = .halted)
  material : ev.defects = [] ∧ Recomputes s ev commitment.sha256
  digest : ticket.commitmentSha256 = commitment.sha256 ∧ anchor.sha256 = commitment.sha256
  attested : Attested s proof commitment.sha256 ticket.bitcoinHeight ticket.bitcoinBlockTime
  reachable : s.isReachable ticket.gitCommit = .ok true
  clock : s.clock = .ok (.aware ticket.requestedAt)
  inTime : InTime request run commitment anchor ticket.bitcoinBlockTime ticket.requestedAt

end Spec

/-! ### The checks one by one -/

section Stages
variable {K O Header σ : Type} [Field K] [LinearOrder K] {s : Sources K O Header σ} {request : ScoringRequest}
  {ev : ScoringEvidence K} {run : RunRecord K} {commitment : DecisionCommitment} {snapshot : PortfolioSnapshot K}
  {digest : Sha256Hex} {anchor : CommitmentAnchor} {proof : Bytes} {commit : Label} {status : ProofStatus}
  {confirmation : BitcoinConfirmation} {now : AwareDatetime}

/-- A step of the gate: its checks in the precedence, and what is known when it passes. -/
abbrev Step (s : Sources K O Header σ) (request : ScoringRequest) {α : Type} (order : List RefusalReason)
    (x : Except AdmitError α) (Q : α → Prop) : Prop := Makes (Blocked s request) (Names s request) Stray order x Q

/-- A refusal by its own check. -/
theorem step_fails {α : Type} {Q : α → Prop} {check : RefusalReason} {order : List RefusalReason}
    {completeness : Option Completeness} (h : Fails s request check) :
    Step s request (check :: order) (.error (.refused check completeness) : Except AdmitError α) Q :=
  Makes.error (.head (Or.inl h)) (Or.inl ⟨completeness, rfl, h⟩)

theorem step_unavailable {α : Type} {Q : α → Prop} {check : RefusalReason} {order : List RefusalReason}
    (h : Unavailable s request check) :
    Step s request (check :: order) (refuse .evidenceUnavailable : Except AdmitError α) Q :=
  Makes.error (.head (Or.inr h)) (Or.inr ⟨none, rfl, h⟩)

theorem step_readRun : Step s request [.runMissing] (readRun s request) fun x =>
    s.load request.runId = .ok x.1 ∧ x.1.run = some x.2 := by
  cases hload : s.load request.runId with
  | error e =>
    have hread : readRun s request = refuse .evidenceUnavailable := by simp only [readRun, hload]
    rw [hread]
    exact step_unavailable hload
  | ok ev =>
    cases hrun : ev.run with
    | none =>
      have hread : readRun s request = refuseMissing .runMissing := by simp only [readRun, hload, hrun]
      have hfails : Fails s request .runMissing := ⟨ev, hload, hrun⟩
      rw [hread]
      exact step_fails hfails
    | some run =>
      have hread : readRun s request = .ok (ev, run) := by simp only [readRun, hload, hrun]
      rw [hread]
      refine Makes.ok ⟨rfl, hrun⟩ (List.forall_mem_singleton.mpr ?_)
      rintro (⟨ev', hload', hnone⟩ | hfail)
      · rw [← Except.ok.inj (hload.symm.trans hload'), hrun] at hnone
        cases hnone
      · cases hload.symm.trans hfail

theorem step_requireCommitment (hload : s.load request.runId = .ok ev) :
    Step s request [.noCommitment] (requireCommitment ev) fun c => ev.commitment = some c := by
  rw [requireCommitment]
  cases hcommitment : ev.commitment with
  | none =>
    have hfails : Fails s request .noCommitment := ⟨ev, hload, hcommitment⟩
    exact step_fails hfails
  | some commitment =>
    refine Makes.ok rfl (List.forall_mem_singleton.mpr ?_)
    rintro (⟨ev', hload', hnone⟩ | hfail)
    · rw [← Except.ok.inj (hload.symm.trans hload'), hcommitment] at hnone
      cases hnone
    · exact hfail

theorem step_classify (hload : s.load request.runId = .ok ev) (hrun : ev.run = some run) :
    Step s request [.notScorableStatus, .haltEvidenceMissing] (classify ev run) fun c =>
      (run.status ∈ completeStatuses run.mode ∧ c = .complete) ∨
        (stoppedByHalt run = true ∧ ev.killSwitchEvents ≠ [] ∧ c = .halted) := by
  -- the run of a failing check is this run
  have hsame : ∀ ev' run', s.load request.runId = .ok ev' → ev'.run = some run' → ev' = ev ∧ run' = run := by
    intro ev' run' hload' hrun'
    have heq := Except.ok.inj (hload'.symm.trans hload)
    rw [heq, hrun] at hrun'
    exact ⟨heq, (Option.some.inj hrun').symm⟩
  rw [classify]
  split
  · next hcomplete =>
    refine Makes.ok (Or.inl ⟨hcomplete, rfl⟩) (List.forall_mem_cons.mpr ⟨?_, List.forall_mem_singleton.mpr ?_⟩)
    · rintro (⟨ev', run', hload', hrun', hnot, -⟩ | hfail)
      · obtain ⟨rfl, rfl⟩ := hsame ev' run' hload' hrun'
        exact hnot hcomplete
      · exact hfail
    · rintro (⟨ev', run', hload', hrun', hnot, -⟩ | hfail)
      · obtain ⟨rfl, rfl⟩ := hsame ev' run' hload' hrun'
        exact hnot hcomplete
      · exact hfail
  · next hcomplete =>
    split
    · next hhalt =>
      have hstatus : ¬Blocked s request .notScorableStatus := by
        rintro (⟨ev', run', hload', hrun', -, hnot⟩ | hfail)
        · obtain ⟨rfl, rfl⟩ := hsame ev' run' hload' hrun'
          rw [hhalt] at hnot
          cases hnot
        · exact hfail
      split
      · next hevents =>
        have hfails : Fails s request .haltEvidenceMissing := ⟨ev, run, hload, hrun, hcomplete, hhalt, hevents⟩
        exact Makes.error (.skip (.head (Or.inl hfails)) hstatus) (Or.inl ⟨_, rfl, hfails⟩)
      · next hevents =>
        refine Makes.ok (Or.inr ⟨hhalt, hevents, rfl⟩) (List.forall_mem_cons.mpr ⟨hstatus, List.forall_mem_singleton.mpr ?_⟩)
        rintro (⟨ev', run', hload', hrun', -, -, hnone⟩ | hfail)
        · obtain ⟨rfl, rfl⟩ := hsame ev' run' hload' hrun'
          exact hevents hnone
        · exact hfail
    · next hhalt =>
      have hfails : Fails s request .notScorableStatus := ⟨ev, run, hload, hrun, hcomplete, by simpa using hhalt⟩
      exact step_fails hfails

theorem step_requireSnapshot (hload : s.load request.runId = .ok ev) :
    Step s request [.materialIncomplete] (requireSnapshot ev) fun x => ev.defects = [] ∧ ev.snapshot = some x := by
  rw [requireSnapshot]
  split
  · next snapshot hdefects hsnapshot =>
    refine Makes.ok ⟨hdefects, hsnapshot⟩ (List.forall_mem_singleton.mpr ?_)
    rintro (⟨ev', hload', hwhy⟩ | hfail)
    · rw [← Except.ok.inj (hload.symm.trans hload'), hdefects, hsnapshot] at hwhy
      simp at hwhy
    · exact hfail
  · next hnot =>
    have hwhy : ev.defects ≠ [] ∨ ev.snapshot = none := by
      cases hdefects : ev.defects with
      | cons d rest => exact Or.inl (List.cons_ne_nil d rest)
      | nil =>
        cases hsnapshot : ev.snapshot with
        | none => exact Or.inr rfl
        | some snapshot => exact absurd hsnapshot (hnot snapshot hdefects)
    have hfails : Fails s request .materialIncomplete := ⟨ev, hload, hwhy⟩
    exact step_fails hfails

theorem recomputes_unique {digest' : Sha256Hex} (h : Recomputes s ev digest) (h' : Recomputes s ev digest') :
    digest = digest' := by
  obtain ⟨run, snapshot, hrun, hsnapshot, hhash⟩ := h
  obtain ⟨run', snapshot', hrun', hsnapshot', hhash'⟩ := h'
  rw [hrun] at hrun'
  rw [hsnapshot] at hsnapshot'
  cases hrun'
  cases hsnapshot'
  exact Except.ok.inj (hhash.symm.trans hhash')

theorem step_recompute (hload : s.load request.runId = .ok ev) (hrun : ev.run = some run)
    (hcommitment : ev.commitment = some commitment) (hsnapshot : ev.snapshot = some snapshot) :
    Step s request [.commitmentMismatch] (recompute s ev run commitment snapshot) fun digest =>
      digest = commitment.sha256 ∧ Recomputes s ev commitment.sha256 := by
  -- the digest that verifies is the recomputed one
  have hiff : Recomputes s ev commitment.sha256 ↔
      commitmentHash s.sha256 s.floatText run ev.decisions snapshot = .ok commitment.sha256 := by
    constructor
    · rintro ⟨run', snapshot', hrun', hsnapshot', hhash⟩
      rw [hrun] at hrun'
      rw [hsnapshot] at hsnapshot'
      cases hrun'
      cases hsnapshot'
      exact hhash
    · exact fun hhash => ⟨run, snapshot, hrun, hsnapshot, hhash⟩
  have hmismatch (hnot : ¬Recomputes s ev commitment.sha256) : Fails s request .commitmentMismatch :=
    ⟨ev, commitment, hload, hcommitment, hnot⟩
  rw [recompute, verifyCommitment]
  cases hhash : commitmentHash s.sha256 s.floatText run ev.decisions snapshot with
  | error e =>
    have hfails := hmismatch fun h => by rw [hiff, hhash] at h; cases h
    exact step_fails hfails
  | ok recomputed =>
    by_cases heq : recomputed = commitment.sha256
    · have hrecomputes : Recomputes s ev commitment.sha256 := hiff.mpr (by rw [hhash, heq])
      simp only [heq, ne_eq, not_true_eq_false, if_false]
      refine Makes.ok ⟨rfl, hrecomputes⟩ (List.forall_mem_singleton.mpr ?_)
      rintro (⟨ev', commitment', hload', hcommitment', hnot⟩ | hfail)
      · rw [← Except.ok.inj (hload.symm.trans hload')] at hcommitment' hnot
        rw [hcommitment] at hcommitment'
        cases hcommitment'
        exact hnot hrecomputes
      · exact hfail
    · have hfails := hmismatch fun h => by
        rw [hiff, hhash] at h
        exact heq (Except.ok.inj h)
      simp only [ne_eq, heq, not_false_eq_true, if_true]
      exact step_fails hfails

theorem step_requireAnchor (hload : s.load request.runId = .ok ev) :
    Step s request [.anchorMissing] (requireAnchor ev) fun x =>
      ev.anchor = some x.1 ∧ x.1.otsProof = some x.2.1 ∧ x.1.gitCommit = some x.2.2 := by
  have hmissing (h : ∀ anchor, ev.anchor = some anchor → anchor.otsProof = none ∨ anchor.gitCommit = none) :
      Fails s request .anchorMissing := ⟨ev, hload, h⟩
  cases hanchor : ev.anchor with
  | none =>
    have hfails := hmissing fun anchor h => by rw [hanchor] at h; cases h
    simp only [requireAnchor, hanchor]
    exact step_fails hfails
  | some anchor =>
    have hsame : ∀ anchor', ev.anchor = some anchor' → anchor' = anchor := fun anchor' h =>
      (Option.some.inj (hanchor.symm.trans h)).symm
    cases hproof : anchor.otsProof with
    | none =>
      have hfails := hmissing fun anchor' h => Or.inl (by rw [hsame anchor' h, hproof])
      simp only [requireAnchor, hanchor, hproof]
      exact step_fails hfails
    | some proof =>
      cases hcommit : anchor.gitCommit with
      | none =>
        have hfails := hmissing fun anchor' h => Or.inr (by rw [hsame anchor' h, hcommit])
        simp only [requireAnchor, hanchor, hproof, hcommit]
        exact step_fails hfails
      | some commit =>
        have hvalue : requireAnchor ev = .ok (anchor, proof, commit) := by
          simp only [requireAnchor, hanchor, hproof, hcommit]
        rw [hvalue]
        refine Makes.ok ⟨rfl, hproof, hcommit⟩ (List.forall_mem_singleton.mpr ?_)
        rintro (⟨ev', hload', hnone⟩ | hfail)
        · rw [← Except.ok.inj (hload.symm.trans hload')] at hnone
          rcases hnone anchor hanchor with h | h
          · rw [hproof] at h
            cases h
          · rw [hcommit] at h
            cases h
        · exact hfail

/-- The digest, the anchor and the proof that a check speaks of are these. -/
theorem same_anchor {ev' : ScoringEvidence K} {digest' : Sha256Hex} {anchor' : CommitmentAnchor} {proof' : Bytes}
    (hload : s.load request.runId = .ok ev) (hrecomputes : Recomputes s ev digest) (hanchor : ev.anchor = some anchor)
    (hproof : anchor.otsProof = some proof) (hload' : s.load request.runId = .ok ev')
    (hrecomputes' : Recomputes s ev' digest') (hanchor' : ev'.anchor = some anchor')
    (hproof' : anchor'.otsProof = some proof') : digest' = digest ∧ anchor' = anchor ∧ proof' = proof := by
  rw [← Except.ok.inj (hload.symm.trans hload')] at hrecomputes' hanchor'
  rw [hanchor] at hanchor'
  cases hanchor'
  rw [hproof] at hproof'
  cases hproof'
  exact ⟨recomputes_unique hrecomputes' hrecomputes, rfl, rfl⟩

theorem step_bindAnchor (hload : s.load request.runId = .ok ev) (hrecomputes : Recomputes s ev digest)
    (hanchor : ev.anchor = some anchor) (hproof : anchor.otsProof = some proof) :
    Step s request [.anchorInvalid] (bindAnchor s anchor proof digest) fun status =>
      anchor.sha256 = digest ∧ checkBinding s.ots proof digest = .ok status := by
  have hinvalid (h : anchor.sha256 ≠ digest ∨ ∀ status, checkBinding s.ots proof digest ≠ .ok status) :
      Fails s request .anchorInvalid := ⟨ev, digest, anchor, proof, hload, hrecomputes, hanchor, hproof, h⟩
  by_cases hdigest : anchor.sha256 = digest
  · cases hbinding : checkBinding s.ots proof digest with
    | error defect =>
      have hfails := hinvalid (Or.inr fun status h => by rw [hbinding] at h; cases h)
      simp only [bindAnchor, hdigest, ne_eq, not_true_eq_false, if_false, hbinding]
      exact step_fails hfails
    | ok status =>
      simp only [bindAnchor, hdigest, ne_eq, not_true_eq_false, if_false, hbinding]
      refine Makes.ok ⟨trivial, rfl⟩ (List.forall_mem_singleton.mpr ?_)
      rintro (⟨ev', digest', anchor', proof', hload', hrecomputes', hanchor', hproof', hwhy⟩ | hfail)
      · obtain ⟨rfl, rfl, rfl⟩ := same_anchor hload hrecomputes hanchor hproof hload' hrecomputes' hanchor' hproof'
        rcases hwhy with hne | hnot
        · exact hne hdigest
        · exact hnot status hbinding
      · exact hfail
  · have hfails := hinvalid (Or.inl hdigest)
    simp only [bindAnchor, ne_eq, hdigest, not_false_eq_true, if_true]
    exact step_fails hfails

theorem step_confirmAnchor (hload : s.load request.runId = .ok ev) (hrecomputes : Recomputes s ev digest)
    (hanchor : ev.anchor = some anchor) (hproof : anchor.otsProof = some proof)
    (hbinding : checkBinding s.ots proof digest = .ok status) :
    Step s request [.otsNotConfirmed, .headerVerificationFailed] (confirmAnchor s status proof digest) fun c =>
      confirmed s proof digest = .ok c := by
  rw [confirmAnchor]
  split
  · next hconfirmed =>
    have hheights : status.bitcoinHeights = [] := by simpa [ProofStatus.confirmed] using hconfirmed
    have hfails : Fails s request .otsNotConfirmed :=
      ⟨ev, digest, anchor, proof, status, hload, hrecomputes, hanchor, hproof, hbinding, hheights⟩
    exact step_fails hfails
  · next hconfirmed =>
    have hpass : ¬Blocked s request .otsNotConfirmed := by
      rintro (⟨ev', digest', anchor', proof', status', hload', hrecomputes', hanchor', hproof', hbinding', hnone⟩ | hfail)
      · obtain ⟨rfl, rfl, rfl⟩ := same_anchor hload hrecomputes hanchor hproof hload' hrecomputes' hanchor' hproof'
        rw [hbinding] at hbinding'
        cases hbinding'
        exact hconfirmed (by simp [ProofStatus.confirmed, hnone])
      · exact hfail
    cases hrun : (confirmBitcoin s.ots proof digest s.headers).run s.state with
    | error e =>
      have hvalue : confirmed s proof digest = .error e := by rw [confirmed, hrun]
      -- every other exception says that a header could not be fetched
      have hother (hne : ∀ defect, e ≠ .binding defect) :
          Step s request [.otsNotConfirmed, .headerVerificationFailed]
            (refuse .evidenceUnavailable : Except AdmitError BitcoinConfirmation)
            fun c => confirmed s proof digest = .ok c := by
        have hunavailable : Unavailable s request .headerVerificationFailed :=
          ⟨ev, digest, anchor, proof, e, hload, hrecomputes, hanchor, hproof, hvalue, hne⟩
        exact Makes.error (.skip (.head (Or.inr hunavailable)) hpass) (Or.inr ⟨none, rfl, hunavailable⟩)
      cases e with
      | binding defect =>
        have hfails : Fails s request .headerVerificationFailed :=
          ⟨ev, digest, anchor, proof, defect, hload, hrecomputes, hanchor, hproof, hvalue⟩
        exact Makes.error (.skip (.head (Or.inl hfails)) hpass) (Or.inl ⟨none, rfl, hfails⟩)
      | unavailable => exact hother nofun
      | notEligible => exact hother nofun
      | integrity => exact hother nofun
      | other => exact hother nofun
    | ok x =>
      have hvalue : confirmed s proof digest = .ok x.1 := by rw [confirmed, hrun]
      refine Makes.ok hvalue (List.forall_mem_cons.mpr ⟨hpass, List.forall_mem_singleton.mpr ?_⟩)
      rintro (⟨ev', digest', anchor', proof', defect, hload', hrecomputes', hanchor', hproof', hfails⟩ |
        ⟨ev', digest', anchor', proof', e, hload', hrecomputes', hanchor', hproof', hfails, -⟩)
      · obtain ⟨rfl, rfl, rfl⟩ := same_anchor hload hrecomputes hanchor hproof hload' hrecomputes' hanchor' hproof'
        cases hvalue.symm.trans hfails
      · obtain ⟨rfl, rfl, rfl⟩ := same_anchor hload hrecomputes hanchor hproof hload' hrecomputes' hanchor' hproof'
        cases hvalue.symm.trans hfails

theorem step_requireReachable (hload : s.load request.runId = .ok ev) (hanchor : ev.anchor = some anchor)
    (hcommit : anchor.gitCommit = some commit) :
    Step s request [.gitUnreachable] (requireReachable s commit) fun _ => s.isReachable commit = .ok true := by
  -- the commit of a failing check is this commit
  have hsame : ∀ ev' anchor' commit', s.load request.runId = .ok ev' → ev'.anchor = some anchor' →
      anchor'.gitCommit = some commit' → commit' = commit := by
    intro ev' anchor' commit' hload' hanchor' hcommit'
    rw [← Except.ok.inj (hload.symm.trans hload'), hanchor] at hanchor'
    cases hanchor'
    exact (Option.some.inj (hcommit.symm.trans hcommit')).symm
  cases hreach : s.isReachable commit with
  | error e =>
    have hvalue : requireReachable s commit = refuse .evidenceUnavailable := by simp only [requireReachable, hreach]
    have hunavailable : Unavailable s request .gitUnreachable := ⟨ev, anchor, commit, hload, hanchor, hcommit, hreach⟩
    rw [hvalue]
    exact step_unavailable hunavailable
  | ok reachable =>
    cases reachable with
    | false =>
      have hvalue : requireReachable s commit = refuse .gitUnreachable := by simp only [requireReachable, hreach]
      have hfails : Fails s request .gitUnreachable := ⟨ev, anchor, commit, hload, hanchor, hcommit, hreach⟩
      rw [hvalue]
      exact step_fails hfails
    | true =>
      have hvalue : requireReachable s commit = .ok () := by simp only [requireReachable, hreach]
      rw [hvalue]
      refine Makes.ok rfl (List.forall_mem_singleton.mpr ?_)
      rintro (⟨ev', anchor', commit', hload', hanchor', hcommit', hnot⟩ | ⟨ev', anchor', commit', hload', hanchor', hcommit', hnot⟩)
      · rw [hsame ev' anchor' commit' hload' hanchor' hcommit'] at hnot
        cases hreach.symm.trans hnot
      · rw [hsame ev' anchor' commit' hload' hanchor' hcommit'] at hnot
        cases hreach.symm.trans hnot

/-- A clock that fails or is naive is no refusal. -/
theorem step_readClock : Step s request [] (readClock s) fun now => s.clock = .ok (.aware now) := by
  have hstray (e : AdmitError) (he : e = .clock ∨ e = .naiveClock) : Stray e := by
    rcases he with rfl | rfl <;> exact fun _ _ h => nomatch h
  cases hclock : s.clock with
  | error e =>
    have hvalue : readClock s = .error .clock := by simp only [readClock, hclock]
    rw [hvalue]
    exact Or.inl (hstray _ (Or.inl rfl))
  | ok moment =>
    cases moment with
    | naive micros =>
      have hvalue : readClock s = .error .naiveClock := by simp only [readClock, hclock]
      rw [hvalue]
      exact Or.inl (hstray _ (Or.inr rfl))
    | aware now =>
      have hvalue : readClock s = .ok now := by simp only [readClock, hclock]
      rw [hvalue]
      exact Makes.ok rfl (List.forall_mem_nil _)

theorem checkTiming_cases (request : ScoringRequest) (run : RunRecord K) (commitment : DecisionCommitment)
    (anchor : CommitmentAnchor) (blockTime : Int) (now : AwareDatetime) :
    (InTime request run commitment anchor blockTime now ∧
      checkTiming request run commitment anchor blockTime now = .ok ()) ∨
    (¬InTime request run commitment anchor blockTime now ∧
      checkTiming request run commitment anchor blockTime now = refuse .anchorTiming) := by
  unfold checkTiming
  split
  · next horder => exact Or.inr ⟨fun h => horder ⟨h.committed, h.anchored⟩, rfl⟩
  · next horder =>
    obtain ⟨hcommitted, hanchored⟩ := not_not.mp horder
    split
    · next hblock => exact Or.inr ⟨fun h => absurd h.block (not_le.mpr hblock), rfl⟩
    · next hblock =>
      split
      · next hlive =>
        split
        · next earliest hearliest =>
          split
          · next hlate =>
            refine Or.inr ⟨fun h => hlate ?_, rfl⟩
            obtain ⟨earliest', hearliest', hbefore⟩ := h.live hlive
            rw [hearliest] at hearliest'
            cases hearliest'
            exact hbefore
          · next hlate =>
            exact Or.inl ⟨⟨hcommitted, hanchored, not_lt.mp hblock, fun _ => ⟨earliest, hearliest, not_not.mp hlate⟩⟩, rfl⟩
        · next hnone =>
          refine Or.inr ⟨fun h => ?_, rfl⟩
          obtain ⟨earliest, hearliest, -⟩ := h.live hlive
          exact hnone earliest hearliest
      · next hlive => exact Or.inl ⟨⟨hcommitted, hanchored, not_lt.mp hblock, fun h => absurd h hlive⟩, rfl⟩

theorem step_checkTiming (hload : s.load request.runId = .ok ev) (hrun : ev.run = some run)
    (hcommitment : ev.commitment = some commitment) (hrecomputes : Recomputes s ev digest)
    (hanchor : ev.anchor = some anchor) (hproof : anchor.otsProof = some proof)
    (hconfirmed : confirmed s proof digest = .ok confirmation) (hclock : s.clock = .ok (.aware now)) :
    Step s request [.anchorTiming] (checkTiming request run commitment anchor confirmation.blockTime now) fun _ =>
      InTime request run commitment anchor confirmation.blockTime now := by
  rcases checkTiming_cases request run commitment anchor confirmation.blockTime now with ⟨hin, hvalue⟩ | ⟨hout, hvalue⟩
  · rw [hvalue]
    refine Makes.ok hin (List.forall_mem_singleton.mpr ?_)
    rintro (⟨ev', run', commitment', digest', anchor', proof', confirmation', now', hload', hrun', hcommitment',
      hrecomputes', hanchor', hproof', hconfirmed', hclock', hout⟩ | hfail)
    · obtain ⟨rfl, rfl, rfl⟩ := same_anchor hload hrecomputes hanchor hproof hload' hrecomputes' hanchor' hproof'
      rw [← Except.ok.inj (hload.symm.trans hload')] at hrun' hcommitment'
      obtain rfl := Option.some.inj (hrun.symm.trans hrun')
      obtain rfl := Option.some.inj (hcommitment.symm.trans hcommitment')
      obtain rfl := Except.ok.inj (hconfirmed.symm.trans hconfirmed')
      cases hclock.symm.trans hclock'
      exact hout hin
    · exact hfail
  · have hfails : Fails s request .anchorTiming := ⟨ev, run, commitment, digest, anchor, proof, confirmation, now, hload,
      hrun, hcommitment, hrecomputes, hanchor, hproof, hconfirmed, hclock, hout⟩
    rw [hvalue]
    exact step_fails hfails

/-! ### The confirmation -/

/-- One attestation: what is found is of a header that the source gave. -/
theorem confirmStep_attested {best found : Option BitcoinConfirmation} {x : OpenTimestamps.Bytes × Attestation} {before after : σ}
    (h : (confirmStep s.ots s.headers best x).run before = .ok (found, after)) :
    found = best ∨ ∃ c, (found = some c ∨ found = best) ∧ x.2 = .bitcoin c.height ∧ ∃ header after,
      (s.headers c.height).run before = .ok (header, after) ∧
        s.ots.verifyAgainstBlockheader c.height x.1 header = some c.blockTime := by
  obtain ⟨msg, att⟩ := x
  cases att with
  | pending uri =>
    cases h
    exact Or.inl rfl
  | unknown tag payload =>
    cases h
    exact Or.inl rfl
  | bitcoin height =>
    simp only [confirmStep, StateT.run_bind] at h
    obtain ⟨⟨header, between⟩, hheader, h⟩ := Except.bind_eq_ok.mp h
    cases hverify : s.ots.verifyAgainstBlockheader height msg header with
    | none =>
      simp only [hverify] at h
      cases h
      exact Or.inl rfl
    | some blockTime =>
      simp only [hverify] at h
      obtain ⟨hfound, -⟩ := Prod.mk.inj (Except.ok.inj h)
      refine Or.inr ⟨⟨height, blockTime⟩, ?_, rfl, header, between, hheader, hverify⟩
      rw [← hfound]
      cases best with
      | none => exact Or.inl rfl
      | some b =>
        rw [lowest]
        split
        · exact Or.inl rfl
        · exact Or.inr rfl

theorem confirmSteps_attested (l : List (OpenTimestamps.Bytes × Attestation)) {best found : Option BitcoinConfirmation}
    {before after : σ} (h : (l.foldlM (confirmStep s.ots s.headers) best).run before = .ok (found, after)) :
    found = best ∨ ∃ c msg header before after, found = some c ∧ (msg, .bitcoin c.height) ∈ l ∧
      (s.headers c.height).run before = .ok (header, after) ∧
        s.ots.verifyAgainstBlockheader c.height msg header = some c.blockTime := by
  induction l generalizing best before with
  | nil =>
    cases h
    exact Or.inl rfl
  | cons x l ih =>
    rw [List.foldlM_cons, StateT.run_bind] at h
    obtain ⟨⟨next, between⟩, hstep, hrest⟩ := Except.bind_eq_ok.mp h
    rcases ih hrest with rfl | ⟨c, msg, header, b, a, hfound, hmem, hheader, hverify⟩
    · rcases confirmStep_attested hstep with rfl | ⟨c, rfl | rfl, hatt, header, a, hheader, hverify⟩
      · exact Or.inl rfl
      · refine Or.inr ⟨c, x.1, header, before, a, rfl, ?_, hheader, hverify⟩
        rw [← hatt]
        exact List.mem_cons_self
      · exact Or.inl rfl
    · exact Or.inr ⟨c, msg, header, b, a, hfound, List.mem_cons_of_mem x hmem, hheader, hverify⟩

omit [Field K] [LinearOrder K] in
theorem bound_of_checkBinding {ots : Package O Header} {file : DetachedFile O}
    (hbinding : checkBinding ots proof digest = .ok status) (hfile : loads ots proof = .ok file) :
    file.fileHashOp = .sha256 ∧ file.fileDigest = fromHex digest.val.toList ∧
      file.timestamp.msg = fromHex digest.val.toList := by
  rw [checkBinding, hfile] at hbinding
  simp only at hbinding
  split at hbinding
  · cases hbinding
  · next hop =>
    split at hbinding
    · cases hbinding
    · next hdigest =>
      obtain ⟨hdigest, hmsg⟩ := not_or.mp hdigest
      exact ⟨not_not.mp hop, not_not.mp hdigest, not_not.mp hmsg⟩

theorem attested_of_confirmed (h : confirmed s proof digest = .ok confirmation) :
    Attested s proof digest confirmation.height confirmation.blockTime := by
  rw [confirmed] at h
  cases hrun : (confirmBitcoin s.ots proof digest s.headers).run s.state with
  | error e =>
    rw [hrun] at h
    cases h
  | ok x =>
    rw [hrun] at h
    obtain rfl := Except.ok.inj h
    cases hbinding : checkBinding s.ots proof digest with
    | error defect =>
      simp only [confirmBitcoin, hbinding, binding, StateT.run_bind] at hrun
      cases hrun
    | ok status =>
      cases hfile : loads s.ots proof with
      | error defect =>
        simp only [confirmBitcoin, hbinding, hfile, binding, StateT.run_bind, pure_bind] at hrun
        cases hrun
      | ok file =>
        simp only [confirmBitcoin, hbinding, hfile, binding, StateT.run_bind, pure_bind] at hrun
        obtain ⟨⟨best, between⟩, hsteps, hrun⟩ := Except.bind_eq_ok.mp hrun
        cases best with
        | none => cases hrun
        | some best =>
          cases hrun
          obtain ⟨hop, hdigest, hmsg⟩ := bound_of_checkBinding hbinding hfile
          rcases confirmSteps_attested _ hsteps with hnone | ⟨c, msg, header, b, a, hfound, hmem, hheader, hverify⟩
          · cases hnone
          · obtain rfl := Option.some.inj hfound
            exact ⟨file, msg, header, b, a, deserialize_of_loads hfile, hop, hdigest, hmsg, hmem, hheader, hverify⟩

/-! ### The gate -/

theorem step_admitRun : Step s request precedence (admitRun s request) fun ticket =>
    ∃ ev run commitment anchor proof, Admitted s request ticket ev run commitment anchor proof := by
  have hcut : precedence = [.runMissing] ++ ([.noCommitment] ++ ([.notScorableStatus, .haltEvidenceMissing] ++
    ([.materialIncomplete] ++ ([.commitmentMismatch] ++ ([.anchorMissing] ++ ([.anchorInvalid] ++
      ([.otsNotConfirmed, .headerVerificationFailed] ++ ([.gitUnreachable] ++ ([] ++ ([.anchorTiming] ++ [])))))))))) := rfl
  rw [hcut]
  refine Makes.bind step_readRun ?_
  rintro ⟨ev, run⟩ ⟨hload, hrun⟩
  refine Makes.bind (step_requireCommitment hload) fun commitment hcommitment => ?_
  refine Makes.bind (step_classify hload hrun) fun completeness hcompleteness => ?_
  refine Makes.bind (step_requireSnapshot hload) ?_
  rintro snapshot ⟨hdefects, hsnapshot⟩
  refine Makes.bind (step_recompute hload hrun hcommitment hsnapshot) ?_
  rintro _ ⟨rfl, hrecomputes⟩
  refine Makes.bind (step_requireAnchor hload) ?_
  rintro ⟨anchor, proof, commit⟩ ⟨hanchor, hproof, hcommit⟩
  refine Makes.bind (step_bindAnchor hload hrecomputes hanchor hproof) ?_
  rintro status ⟨hdigest, hbinding⟩
  refine Makes.bind (step_confirmAnchor hload hrecomputes hanchor hproof hbinding) fun confirmation hconfirmed => ?_
  refine Makes.bind (step_requireReachable hload hanchor hcommit) fun _ hreach => ?_
  refine Makes.bind step_readClock fun now hclock => ?_
  refine Makes.bind (step_checkTiming hload hrun hcommitment hrecomputes hanchor hproof hconfirmed hclock)
    fun _ hinTime => ?_
  refine Makes.ok ⟨ev, run, commitment, anchor, proof, ?_⟩ (List.forall_mem_nil _)
  refine ⟨hload, hrun, hcommitment, hanchor, hproof, hcommit, ⟨rfl, rfl⟩, ?_, ⟨hdefects, hrecomputes⟩, ⟨rfl, hdigest⟩,
    attested_of_confirmed hconfirmed, hreach, hclock, hinTime⟩
  rcases hcompleteness with ⟨hstatus, hc⟩ | ⟨hhalt, hevents, hc⟩
  · exact Or.inl ⟨hstatus, hc⟩
  · obtain ⟨hstopped, hreason⟩ := Bool.and_eq_true_iff.mp hhalt
    exact Or.inr ⟨of_decide_eq_true hstopped, hreason, hevents, hc⟩

/-- A ticket is given for a run that passes every check; a refusal names the first check that fails, or says that its
    evidence could not be fetched; and outcomes are loaded with the ticket of an admission and with nothing else. -/
theorem admission {ε α : Type} (s : Sources K O Header σ) (request : ScoringRequest)
    (loadOutcomes : ScoringTicket → Except ε α) :
    (∀ ticket, admitRun s request = .ok ticket →
      ∃ ev run commitment anchor proof, Admitted s request ticket ev run commitment anchor proof) ∧
    (∀ reason completeness, admitRun s request = .error (.refused reason completeness) →
      ∃ check, FirstOf (Blocked s request) precedence check ∧
        (reason = check ∧ Fails s request check ∨ reason = .evidenceUnavailable ∧ Unavailable s request check)) ∧
    ∀ ticket, ticket ∈ (runScoring s request loadOutcomes).2 ↔ admitRun s request = .ok ticket := by
  have hstep : Step s request precedence (admitRun s request) _ := step_admitRun
  refine ⟨fun ticket hticket => ?_, fun reason completeness hrefused => ?_, fun ticket => ?_⟩
  · rw [Step, hticket] at hstep
    exact hstep.1
  · rw [Step, hrefused] at hstep
    rcases hstep with hstray | ⟨check, hfirst, ⟨_, heq, hfails⟩ | ⟨_, heq, hunavailable⟩⟩
    · exact absurd rfl (hstray reason completeness)
    · obtain ⟨rfl, -⟩ := AdmitError.refused.inj heq
      exact ⟨reason, hfirst, Or.inl ⟨rfl, hfails⟩⟩
    · obtain ⟨rfl, -⟩ := AdmitError.refused.inj heq
      exact ⟨check, hfirst, Or.inr ⟨rfl, hunavailable⟩⟩
  · rw [runScoring]
    cases admitRun s request with
    | error e => simp
    | ok ticket' => simp [eq_comm]

end Stages

/-! ### An executed run -/

/-- Run 1 executed as it was committed and anchored. -/
def executedEvidence : ScoringEvidence ℚ where
  run := some (Sink.runAt .executed)
  commitment := some ⟨⟨1⟩, Sink.zeroHex, ⟨0, 0⟩⟩
  decisions := []
  snapshot := some cashSnapshot
  anchor := some { AnchorStage.leafAnchor [.bitcoin 100] none with gitCommit := some ⟨"0", Samples.label_zero⟩ }
  killSwitchEvents := []
  defects := []

/-- The evidence is there, and every source answers. -/
def answering : Sources ℚ String OpenTimestamps.Bytes Unit where
  sha256 _ := Sink.zeroHex
  floatText := decimalText
  ots := leafPackage
  load _ := .ok executedEvidence
  headers _ := pure zeroDigest
  state := ()
  isReachable _ := .ok true
  clock := .ok (.aware ⟨1700000001000000, 0⟩)

/-- A request for outcomes from the second after the block on. -/
def laterOutcomes : ScoringRequest := ⟨⟨1⟩, some (.aware ⟨1700000001000000, 0⟩)⟩

/-- The executed run is admitted. -/
theorem admission_executed : ∃ ticket ev run commitment anchor proof,
    admitRun answering laterOutcomes = .ok ticket ∧ Admitted answering laterOutcomes ticket ev run commitment anchor proof := by
  have hok : (admitRun answering laterOutcomes).isOk = true := by decide
  cases hgiven : admitRun answering laterOutcomes with
  | error e =>
    rw [hgiven] at hok
    cases hok
  | ok ticket =>
    obtain ⟨ev, run, commitment, anchor, proof, hseen⟩ :=
      (admission answering laterOutcomes fun _ => (.ok () : Except Unit Unit)).1 ticket hgiven
    exact ⟨ticket, ev, run, commitment, anchor, proof, rfl, hseen⟩

end Scorable
end AsymmetricCommittee
