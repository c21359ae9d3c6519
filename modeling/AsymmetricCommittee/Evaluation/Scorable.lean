import AsymmetricCommittee.Evaluation.Anchoring
import AsymmetricCommittee.Store.Material

/-! The scorability gate (`evaluation/scorable.py`): a run is admitted before any outcome is read. What is stored, the
    header source, the git remote and the clock are arguments; each may fail. -/

namespace AsymmetricCommittee
open OpenTimestamps

/-- A row that could not be rebuilt. -/
structure MaterialDefect where
  kind : MaterialDefectKind
  detail : String

/-- `ScoringEvidence`: everything the gate needs, read at once; absent pieces stay absent. -/
structure ScoringEvidence (K : Type) [Field K] [LinearOrder K] where
  run : Option (RunRecord K)
  commitment : Option DecisionCommitment
  decisions : List (CommitteeDecisionRecord K)
  snapshot : Option (PortfolioSnapshot K)
  anchor : Option CommitmentAnchor
  killSwitchEvents : List (KillSwitchEvent K)
  defects : List MaterialDefect

namespace Scorable

inductive Completeness where
  | complete
  | halted
  | missing
  deriving DecidableEq, Repr

inductive RefusalReason where
  | runMissing
  | noCommitment
  | notScorableStatus
  | haltEvidenceMissing
  | materialIncomplete
  | commitmentMismatch
  | anchorMissing
  | anchorInvalid
  | otsNotConfirmed
  | headerVerificationFailed
  | gitUnreachable
  | anchorTiming
  | evidenceUnavailable
  deriving DecidableEq, Repr

/-- What `admit_run` raises: `ScoringRefusedError`, its `ValueError` about a naive clock, or what the clock raises. -/
inductive AdmitError where
  | refused (reason : RefusalReason) (completeness : Option Completeness)
  | naiveClock
  | clock
  deriving DecidableEq, Repr

/-- A datetime that may be naive; only an aware one has an instant. -/
inductive Moment where
  | aware (t : AwareDatetime)
  | naive (micros : Int)
  deriving DecidableEq, Repr

structure ScoringRequest where
  runId : UUID
  earliestResolutionAt : Option Moment

/-- The record of an admission. -/
structure ScoringTicket where
  runId : UUID
  mode : RunMode
  completeness : Completeness
  commitmentSha256 : Sha256Hex
  gitCommit : Label
  bitcoinHeight : Nat
  bitcoinBlockTime : Int
  requestedAt : AwareDatetime

/-- Only complete runs may move to SCORED. -/
def ScoringTicket.mayBecomeScored (self : ScoringTicket) : Bool := self.completeness = .complete

/-- What `admit_run` is given besides the request. The header source may keep a state; the rest is asked once. -/
structure Sources (K O Header σ : Type) [Field K] [LinearOrder K] where
  sha256 : String → Sha256Hex
  floatText : Json.FloatText K
  ots : Package O Header
  load : UUID → Except Unit (ScoringEvidence K)
  headers : Nat → StateT σ (Except AnchorError) Header
  state : σ
  isReachable : Label → Except Unit Bool
  clock : Except Unit Moment

/-- `_COMPLETE_STATUSES`. -/
def completeStatuses : RunMode → List RunStatus
  | .live => [.executed, .scored]
  | .backtest => [.anchored, .scored]
  | .ablation => [.anchored, .scored]

/-- The instant of a block's time. -/
def blockInstant (seconds : Int) : Int := seconds * 1000000

section Admit
variable {K O Header σ : Type} [Field K] [LinearOrder K] (s : Sources K O Header σ)

def refuse {α : Type} (reason : RefusalReason) : Except AdmitError α := .error (.refused reason none)

def refuseMissing {α : Type} (reason : RefusalReason) : Except AdmitError α := .error (.refused reason (some .missing))

/-- Whether a run stopped at a kill switch. -/
def stoppedByHalt (run : RunRecord K) : Bool := run.status = .partialRun && run.statusReason.any isHaltReason

/-- `_classify`. -/
def classify (evidence : ScoringEvidence K) (run : RunRecord K) : Except AdmitError Completeness :=
  if run.status ∈ completeStatuses run.mode then .ok .complete
  else if stoppedByHalt run then
    if evidence.killSwitchEvents = [] then refuseMissing .haltEvidenceMissing else .ok .halted
  else refuseMissing .notScorableStatus

/-- Everything that is stored, read at once, with the run. -/
def readRun (request : ScoringRequest) : Except AdmitError (ScoringEvidence K × RunRecord K) :=
  match s.load request.runId with
  | .error _ => refuse .evidenceUnavailable
  | .ok evidence =>
    match evidence.run with
    | none => refuseMissing .runMissing
    | some run => .ok (evidence, run)

def requireCommitment (evidence : ScoringEvidence K) : Except AdmitError DecisionCommitment :=
  match evidence.commitment with
  | none => refuseMissing .noCommitment
  | some commitment => .ok commitment

/-- The book, if every row could be rebuilt. -/
def requireSnapshot (evidence : ScoringEvidence K) : Except AdmitError (PortfolioSnapshot K) :=
  match evidence.defects, evidence.snapshot with
  | [], some snapshot => .ok snapshot
  | _, _ => refuse .materialIncomplete

/-- The stored digest is never trusted: it is recomputed from the rows. -/
def recompute (evidence : ScoringEvidence K) (run : RunRecord K) (commitment : DecisionCommitment)
    (snapshot : PortfolioSnapshot K) : Except AdmitError Sha256Hex :=
  match verifyCommitment s.sha256 s.floatText commitment.sha256 run evidence.decisions snapshot with
  | .error _ => refuse .commitmentMismatch
  | .ok digest => .ok digest

/-- The anchor with its proof and its git commit. -/
def requireAnchor (evidence : ScoringEvidence K) : Except AdmitError (CommitmentAnchor × Bytes × Label) :=
  match evidence.anchor with
  | none => refuse .anchorMissing
  | some anchor =>
    match anchor.otsProof, anchor.gitCommit with
    | some proof, some commit => .ok (anchor, proof, commit)
    | _, _ => refuse .anchorMissing

/-- The anchor is of the recomputed digest, and so is its proof. -/
def bindAnchor (anchor : CommitmentAnchor) (proof : Bytes) (digest : Sha256Hex) :
    Except AdmitError Anchoring.ProofStatus :=
  if anchor.sha256 ≠ digest then refuse .anchorInvalid
  else
    match Anchoring.checkBinding s.ots proof digest with
    | .error _ => refuse .anchorInvalid
    | .ok status => .ok status

/-- The full verification against the block headers. -/
def confirmAnchor (status : Anchoring.ProofStatus) (proof : Bytes) (digest : Sha256Hex) :
    Except AdmitError Anchoring.BitcoinConfirmation :=
  if status.confirmed = false then refuse .otsNotConfirmed
  else
    match (Anchoring.confirmBitcoin s.ots proof digest s.headers).run s.state with
    | .error (.binding _) => refuse .headerVerificationFailed
    | .error _ => refuse .evidenceUnavailable
    | .ok (confirmation, _) => .ok confirmation

def requireReachable (commit : Label) : Except AdmitError Unit :=
  match s.isReachable commit with
  | .error _ => refuse .evidenceUnavailable
  | .ok false => refuse .gitUnreachable
  | .ok true => .ok ()

def readClock : Except AdmitError AwareDatetime :=
  match s.clock with
  | .error _ => .error .clock
  | .ok (.naive _) => .error .naiveClock
  | .ok (.aware now) => .ok now

/-- The order of commitment, anchor, block and admission. -/
def checkTiming (request : ScoringRequest) (run : RunRecord K) (commitment : DecisionCommitment)
    (anchor : CommitmentAnchor) (blockTime : Int) (requestedAt : AwareDatetime) : Except AdmitError Unit :=
  if ¬(commitment.committedAt.instant ≤ anchor.anchoredAt.instant ∧ anchor.anchoredAt.instant ≤ requestedAt.instant) then
    refuse .anchorTiming
  else if requestedAt.instant < blockInstant blockTime then refuse .anchorTiming
  else if run.mode = .live then
    match request.earliestResolutionAt with
    | some (.aware earliest) =>
      if ¬blockInstant blockTime < earliest.instant then refuse .anchorTiming else .ok ()
    | _ => refuse .anchorTiming
  else .ok ()

/-- `admit_run`. -/
def admitRun (request : ScoringRequest) : Except AdmitError ScoringTicket := do
  let (evidence, run) ← readRun s request
  let commitment ← requireCommitment evidence
  let completeness ← classify evidence run
  let snapshot ← requireSnapshot evidence
  let digest ← recompute s evidence run commitment snapshot
  let (anchor, proof, commit) ← requireAnchor evidence
  let status ← bindAnchor s anchor proof digest
  let confirmation ← confirmAnchor s status proof digest
  requireReachable s commit
  let requestedAt ← readClock s
  checkTiming request run commitment anchor confirmation.blockTime requestedAt
  return ⟨request.runId, run.mode, completeness, digest, commit, confirmation.height, confirmation.blockTime, requestedAt⟩

/-- `run_scoring`, and the tickets that the outcome loader is called with. -/
def runScoring {ε α : Type} (request : ScoringRequest) (loadOutcomes : ScoringTicket → Except ε α) :
    Except (AdmitError ⊕ ε) α × List ScoringTicket :=
  match admitRun s request with
  | .error e => (.error (.inl e), [])
  | .ok ticket => ((loadOutcomes ticket).mapError .inr, [ticket])

end Admit
end Scorable
end AsymmetricCommittee
