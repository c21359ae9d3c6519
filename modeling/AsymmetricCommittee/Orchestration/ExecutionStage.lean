import AsymmetricCommittee.Evaluation.Anchoring
import AsymmetricCommittee.Execution.Halt

/-! The execution stage (`orchestration/execution_stage.py`) with the store-backed market view
    (`orchestration/providers.py`): the only bridge from a committed book to the broker. -/

namespace AsymmetricCommittee
namespace ExecutionStage
open OpenTimestamps Executor
variable {K : Type} [Field K] [LinearOrder K] {σ : Type}

/-- How to name and price the universe. -/
structure MarketView (K : Type) where
  symbols : Dict SecurityId String
  decisionPrices : SecurityId → Option K

/-- What a call of the stage reports. -/
structure ExecutionResult (K : Type) [Field K] [LinearOrder K] where
  runId : UUID
  status : RunStatus
  advanced : Bool
  reason : Option String
  outcomes : List (Outcome K)

/-- What the stage is built with. -/
structure Stage (K O Header : Type) where
  sha256 : String → Sha256Hex
  floatText : Json.FloatText K
  ots : Package O Header
  limits : Halt.Limits K
  options : Executor.Options K

/-! ### The plan -/

section Plan
variable [FloorRing K]

/-- The order that brings one name from what is held to the book. -/
def planName (runId : UUID) (book : ProposedBook K) (view : MarketView K) (equity : K) (positions : Dict String K)
    (name : SecurityId × String) : Except ExecError (Option (ExecutionTarget K)) :=
  let weight := (book.positions.find? fun p => p.securityId = name.1).elim 0 fun p => p.targetWeight.val
  let held := (positions.get? name.2).getD 0
  match (view.decisionPrices name.1).filter fun price => 0 < price with
  | none => if 0 < weight ∨ held ≠ 0 then .error .plan else .ok none
  | some price =>
    let desired : K := if 0 < weight then (⌊weight * equity / price⌋ : Int) else 0
    let delta := round6 (desired - held)
    if delta = 0 then .ok none
    else .ok (some ⟨runId, name.1, name.2, if 0 < delta then .buy else .sell, |delta|, price⟩)

/-- Whole-share deltas from held positions to the book; an unknown name is refused. -/
def planTargets (runId : UUID) (book : ProposedBook K) (view : MarketView K) (equity : K) (positions : Dict String K) :
    Except ExecError (List (ExecutionTarget K)) :=
  if equity ≤ 0 then .error .plan
  else if book.positions.any fun p => !(p.securityId ∈ view.symbols.keys) then .error .plan
  else do
    let planned ← (view.symbols.entries.insertionSort fun a b => a.1.val ≤ b.1.val).mapM
      (planName runId book view equity positions)
    return planned.filterMap id

end Plan

/-- `StoreMarketView`: the listed names of the universe and every name that the broker holds. -/
def marketView (run : RunRecord K) : Steps K σ (MarketView K) := do
  let positions : Dict String K ← request .positions
  let rows : MarketRows K ← request (.marketRows run.asOf)
  let held := (positions.entries.filter fun position => position.2 ≠ 0).map Prod.fst
  if held.any fun ticker => (rows.byTicker.get? ticker).isNone then throw .marketView
  else
    let symbols := held.foldl (fun symbols ticker => match rows.byTicker.get? ticker with
      | none => symbols
      | some securityId => symbols.set securityId ticker) rows.listed
    if symbols.entries = [] then throw .marketView else return ⟨symbols, rows.closes⟩

/-- The order that is already there is driven from its own side and quantity. -/
def existingTarget (run : RunRecord K) (view : MarketView K) (name : SecurityId × String) :
    Steps K σ (Option (ExecutionTarget K)) := do
  let found : Option (BrokerOrder K) ← request (.findByClientId (clientOrderId run.runId name.1 "lim"))
  match found with
  | none => return none
  | some order =>
    let stored : Option (ExecutionRecord K) ← request (.findExecution order.clientOrderId)
    let price := (view.decisionPrices name.1).getD (order.limitPrice.elim 0 fun price => price.val)
    return some ⟨run.runId, name.1, name.2, order.side, order.qty.val, stored.elim price fun stored => stored.decisionPrice.val⟩

/-- `_targets`: a replay keeps each existing limit order's side and quantity, the rest are planned. -/
def targets [FloorRing K] (run : RunRecord K) (book : ProposedBook K) : Steps K σ (List (ExecutionTarget K)) := do
  let view ← marketView run
  let existing ← view.symbols.entries.mapM (existingTarget run view)
  let existing := existing.filterMap id
  let equity : K × K ← request .accountEquity
  let positions : Dict String K ← request .positions
  let planned ← orRaise (planTargets run.runId book view equity.1 positions)
  let fresh := planned.filter fun t => !existing.any fun t' => t'.securityId = t.securityId
  return (existing ++ fresh).insertionSort fun a b => a.securityId.val ≤ b.securityId.val

/-! ### Eligibility -/

section Eligible
variable {O Header : Type} [DecidableEq O] (e : Stage K O Header)

/-- `_halted`: a run that a halt moved to PARTIAL. -/
def halted (run : RunRecord K) : Bool := run.status = .partialRun && run.statusReason.any isHaltReason

/-- `_dead_letter`: what cannot be recorded is left. -/
def deadLetter (run : RunRecord K) (error : ExecError) : Steps K σ Unit :=
  tryCatch (request (.recordDlq run.runId run.asOf error)) fun _ => return ()

/-- The stored rows recompute to the committed hash, and the anchor is a full one of it. -/
def integrity (material : CommitmentMaterial K) : Bool :=
  match verifyMaterial e.sha256 e.floatText material with
  | .error _ => false
  | .ok sha =>
    match material.anchor with
    | none => false
    | some anchor =>
      match anchor.otsProof, anchor.gitCommit with
      | some proof, some _ =>
        match Anchoring.checkBinding e.ots proof sha with
        | .error _ => false
        | .ok _ => true
      | _, _ => false

/-- The committed book of the material. -/
def committedBook (run : RunRecord K) (runId : UUID) (material : CommitmentMaterial K) : Steps K σ (PortfolioSnapshot K) := do
  if integrity e material then
    let snapshot := material.snapshot
    if snapshot.runId ≠ runId ∨ snapshot.book.runId ≠ runId then throw .notEligible
    else if snapshot.book.positions ≠ [] ∧ snapshot.cio.isNone then throw .notEligible
    else return snapshot
  else
    deadLetter run .integrity
    throw .integrity

/-- `_eligible`: everything that must hold before the first broker call. -/
def eligible (runId : UUID) : Option (RunRecord K) → Steps K σ (RunRecord K × PortfolioSnapshot K)
  | none => throw .notEligible
  | some run => do
    if run.mode ≠ .live ∨ run.status ∉ [.anchored, .executed] then throw .notEligible
    else
      let material : Option (CommitmentMaterial K) ← request (.loadCommitmentMaterial runId)
      match material with
      | none => throw .notEligible
      | some material =>
        let snapshot ← committedBook e run runId material
        return (run, snapshot)

end Eligible

/-! ### The kill switch -/

section Stage
variable {O Header : Type} [DecidableEq O] (e : Stage K O Header)

/-- The halt controller's options. -/
def Stage.haltOptions (runId : UUID) : Halt.Options := ⟨runId, e.options.pollSeconds, e.options.pollAttempts⟩

/-- `_halt_controller`: the switch as the stored events leave it. -/
def haltController (runId : UUID) : Steps K Switch Unit := do
  let events : List (KillSwitchEvent K) ← request (.loadKillSwitchEvents runId)
  modify fun _ => ⟨KillSwitch.fromEvents events, KillSwitch.wasFlattened events⟩

/-- The automatic triggers. -/
def checkTriggers (runId : UUID) : Steps K Switch Unit := do
  let lastSuccess : FeedName → Option AwareDatetime ← request .feeds
  Halt.check (e.haltOptions runId) e.limits lastSuccess

def settle (runId : UUID) : Steps K Switch Unit := do
  let _ ← Halt.settleOpenOrders (e.haltOptions runId)

def engageAll : List (KillSwitchEvent K) → Steps K Switch Unit
  | [] => return ()
  | event :: events => do
    engage event.trigger
    engageAll events

/-- The gate of `execute_run`: the durable events are read first, then the automatic triggers run. -/
def gate (runId : UUID) : Steps K Switch Unit := do
  let before ← get
  let events : List (KillSwitchEvent K) ← request (.loadKillSwitchEvents runId)
  engageAll events
  let switch ← get
  if switch.trigger.halted then
    if before.trigger.halted then return () else settle e runId
  else checkTriggers e runId

/-- The result of a run whose switch is engaged. -/
def haltedResult (runId : UUID) (outcomes : List (Outcome K)) : Steps K Switch (ExecutionResult K) := do
  let switch ← get
  let now : Option (RunRecord K) ← request (.loadRun runId)
  return {
    runId, status := now.elim .partialRun fun run => run.status, advanced := false,
    reason := switch.trigger.map fun trigger => "kill switch engaged (" ++ trigger.value ++ ")", outcomes }

/-- `_settle_halted`: only make sure that nothing is left working. -/
def settleHalted (run : RunRecord K) : Steps K Switch (ExecutionResult K) := do
  haltController run.runId
  settle e run.runId
  return ⟨run.runId, run.status, false, run.statusReason, []⟩

/-! ### Running -/

/-- Every name is complete: the evidence must be durable before the state moves. -/
def advance (runId : UUID) (targets : List (ExecutionTarget K)) (outcomes : List (Outcome K)) :
    Steps K Switch (ExecutionResult K) := do
  let stored : List (Option (ExecutionRecord K)) ← targets.mapM fun t =>
    request (.findExecution (clientOrderId runId t.securityId "lim"))
  if stored.any (·.isNone) then throw .evidenceMissing
  else
    let now ← clock
    let advanced : Bool ← request (.markExecuted runId now)
    return ⟨runId, .executed, advanced, none, outcomes⟩

/-- What the outcomes of the book lead to. -/
def finish (runId : UUID) (targets : List (ExecutionTarget K)) (outcomes : List (Outcome K)) :
    Steps K Switch (ExecutionResult K) := do
  let switch ← get
  if switch.trigger.halted then haltedResult runId outcomes
  else if outcomes.all fun o => o.complete && !o.blockedByKillSwitch then advance runId targets outcomes
  else return ⟨runId, .anchored, false, some "execution incomplete", outcomes⟩

variable [FloorRing K]

/-- The book, driven through the executor; a failure is dead-lettered. -/
def executeTargets (runId : UUID) (run : RunRecord K) (targets : List (ExecutionTarget K)) :
    Steps K Switch (List (Outcome K)) :=
  tryCatch (executeBook e.options targets (some (gate e runId))) fun error => do
    deadLetter run error
    throw error

/-- Whether the run may trade, after what is stored and the automatic triggers. -/
def preflight (runId : UUID) : Steps K Switch Unit := do
  haltController runId
  let switch ← get
  if switch.trigger.halted then settle e runId else checkTriggers e runId

/-- An eligible run. -/
def executeEligible (runId : UUID) (run : RunRecord K) (snapshot : PortfolioSnapshot K) :
    Steps K Switch (ExecutionResult K) := do
  if run.status = .executed then return ⟨runId, .executed, false, none, []⟩
  else
    preflight e runId
    let switch ← get
    if switch.trigger.halted then haltedResult runId []
    else
      let targets ← targets run snapshot.book
      let outcomes ← executeTargets e runId run targets
      finish runId targets outcomes

/-- `execute_run`. -/
def executeRun (runId : UUID) : Steps K Switch (ExecutionResult K) := do
  let run : Option (RunRecord K) ← request (.loadRun runId)
  match run.filter halted with
  | some run => settleHalted e run
  | none =>
    let admitted ← eligible e runId run
    executeEligible e runId admitted.1 admitted.2

omit [FloorRing K] in
/-- `manual_halt`: the operator's kill switch. -/
def manualHalt (runId : UUID) (flatten : Bool) : Steps K Switch (ExecutionResult K) := do
  let run : Option (RunRecord K) ← request (.loadRun runId)
  match run.filter fun run => run.mode = .live with
  | none => throw .notEligible
  | some _ =>
    haltController runId
    Halt.manualHalt (e.haltOptions runId) flatten
    let after : Option (RunRecord K) ← request (.loadRun runId)
    match after with
    | none => throw .assertion
    | some after => return ⟨runId, after.status, false, after.statusReason, []⟩

end Stage
end ExecutionStage
end AsymmetricCommittee
