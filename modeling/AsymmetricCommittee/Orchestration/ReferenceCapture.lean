import AsymmetricCommittee.Execution.Reference
import AsymmetricCommittee.Orchestration.References

/-! Reference capture (`orchestration/references.py`, `execution/halt_symbols.py`): the polls of the live runs, the backtest
    builder and the sweep of the halt-reference requests. Tickers are stripped and in upper case as they are. -/

namespace AsymmetricCommittee

/-- The waits of `reference_data` in `pipeline.yaml`, in microseconds. -/
structure ReferenceDataConfig where
  calendarCoverageWait : Int
  liveCaptureGrace : Int
  haltLiveGrace : Int
  wait_pos : 0 < calendarCoverageWait
  live_pos : 0 < liveCaptureGrace
  halt_pos : 0 < haltLiveGrace

namespace ReferenceCapture
open Reference ReferenceRules TradeConditions

/-- What the service is built with. -/
structure Service where
  sha256 : String → Sha256Hex
  et : Int → Date
  config : ReferenceDataConfig
  rebalance : RebalanceConfig
  configHash : Sha256Hex
  providerMap : ProviderCodeMap

inductive CaptureState where
  | deferred
  | written
  | complete
  deriving DecidableEq, Repr

structure CaptureResult where
  state : CaptureState
  written : Nat
  detail : String
  deriving DecidableEq, Repr

def liveVersion : Version := ⟨"live_reference_v1", by decide⟩

def backtestVersion : Version := ⟨"backtest_reference_v1", by decide⟩

def haltVersion : Version := ⟨"halt_reference_v1", by decide⟩

/-- `_RECENT`. -/
def recent : Int := 21 * 86400000000

/-- `any_validated`. -/
def anyValidated (pmap : ProviderCodeMap) : Bool := pmap.entries.any (·.validated)

/-! ### Symbols -/

/-- `canonical_symbols`. -/
def canonicalSymbols (groups : List (List Ticker)) : List Ticker :=
  groups.flatten.dedup.insertionSort fun a b => a.val ≤ b.val

/-- `symbol_set_version`. -/
def symbolSetVersion (snapshot : Option Date) (configHash : Sha256Hex) : String :=
  "halt_symbols_v1:snapshot=" ++ snapshot.elim "none" IsoTime.isoDate ++ ":config=" ++
    String.ofList (configHash.val.toList.take 16)

/-- The symbols of a run by where they come from. -/
structure SymbolGroups where
  book : List Ticker
  members : List Ticker
  instruments : List Ticker
  version : String

section Steps
variable {σ : Type} (e : Service)

def symbolGroups (run : RunRecord ℚ) : Capture σ SymbolGroups := do
  let book : Option (ProposedBook ℚ) ← call (.loadBook run.runId)
  let bookIds := book.elim [] fun book => book.positions.map (·.securityId)
  let members : List (UniverseMember ℚ) ← call (.members run.asOf)
  let ids := (bookIds ++ members.map (·.securityId)).dedup.insertionSort fun a b => a.val ≤ b.val
  let listed : List (SecurityId × Ticker) ← call (.securities ids)
  let instruments : List Ticker ← call .referenceInstruments
  let ticker (id : SecurityId) := (listed.find? fun s => s.1 = id).map Prod.snd
  return {
    book := bookIds.filterMap ticker
    members := (members.map (·.securityId)).filterMap ticker
    instruments
    version := symbolSetVersion ((members.map (·.snapshotDate)).max?) e.configHash }

/-- `_required`: every symbol that any book needs a mark for. -/
def required (run : RunRecord ℚ) : Capture σ (List Ticker) := do
  let groups ← symbolGroups e run
  return canonicalSymbols [groups.book, groups.members, groups.instruments]

def missingReferences (runId : UUID) (symbols : List Ticker) : Capture σ (List Ticker) := do
  let have_ : List ExecutionReference ← call (.executionReferences runId)
  return symbols.filter fun s => decide (s ∉ have_.map (·.symbolRef))

/-! ### Execution references -/

/-- `_reference_day`; without coverage there is none. -/
def referenceDay (run : RunRecord ℚ) (now : AwareDatetime) : Capture σ (Option (TradingSession × AwareDatetime)) :=
  tryCatch (do
    let cal : TradingCalendar ← call (.tradingCalendar now)
    match References.referenceDay e.et e.rebalance cal run.asOf with
    | .ok day => return some day
    | .error error => throw (.coverage error)) fun error =>
      match error with
      | .coverage _ => return none
      | error => throw error

/-- The row of a symbol, validated. -/
def executionReference (row : ExecutionReferenceRow) : Except CaptureError ExecutionReference :=
  if h : row.Valid then .ok ⟨row, h⟩ else .error .validation

/-- The row of an observation on the reference day. -/
def observedRow (runId : UUID) (mode : RefMode) (session : TradingSession) (refTime now : AwareDatetime)
    (version : Version) (obs : ReferenceObservation) : ExecutionReferenceRow where
  toObserved := obs.toObserved
  runId := runId
  symbolRef := obs.symbolRef
  refTime := some refTime
  mode := mode
  sessionDate := some session.sessionDate
  availableAt := now
  sourceVersion := version

/-- The row of a symbol whose reference day is not known. -/
def uncoveredRow (run : RunRecord ℚ) (mode : RefMode) (now : AwareDatetime) (symbol : Ticker) : ExecutionReferenceRow where
  toObserved := (unresolved symbol now .calendarUncovered).toObserved
  runId := run.runId
  symbolRef := symbol
  refTime := none
  mode := mode
  sessionDate := none
  availableAt := now
  sourceVersion := if mode = .live then liveVersion else backtestVersion

/-- `_uncovered`: wait for coverage, and only after the wait store that there is none. -/
def uncovered (run : RunRecord ℚ) (mode : RefMode) (missing : List Ticker) (committedAt now : AwareDatetime) :
    Capture σ CaptureResult :=
  if now.instant < committedAt.instant + e.config.calendarCoverageWait then
    return ⟨.deferred, 0, "calendar not covered yet"⟩
  else do
    let rows ← missing.mapM fun s => orThrow (executionReference (uncoveredRow run mode now s))
    let n : Nat ← call (.recordExecutionReferences rows)
    return ⟨.written, n, "calendar_uncovered"⟩

/-- What a capture finds before it looks at prices: its result, or the symbols that are due at a reference time. -/
inductive Due where
  | settled (result : CaptureResult)
  | rows (missing : List Ticker) (session : TradingSession) (refTime : AwareDatetime)

/-- The common part of `capture_live` and `build_backtest`. -/
def due (mode : RefMode) (runId : UUID) (now : AwareDatetime) : Capture σ Due := do
  let run : Option (RunRecord ℚ) ← call (.loadRun runId)
  match run with
  | none => throw .notAStoredRun
  | some run =>
    if (run.mode = .live) ≠ (mode = .live) then throw .notAStoredRun
    else do
      let committedAt : Option AwareDatetime ← call (.loadCommittedAt runId)
      match committedAt with
      | none => return .settled ⟨.deferred, 0, "run has no commitment"⟩
      | some committedAt => do
        let symbols ← required e run
        let missing ← missingReferences runId symbols
        if missing = [] then return .settled ⟨.complete, 0, ""⟩
        else do
          let day ← referenceDay e run now
          match day with
          | none => do
            let result ← uncovered e run mode missing committedAt now
            return .settled result
          | some (session, refTime) =>
            if now.instant < refTime.instant then return .settled ⟨.deferred, 0, "reference time not reached"⟩
            else return .rows missing session refTime

/-- The observation of one symbol: after the grace it is that there is none, and an unresolved one is left for a later poll. -/
def liveRow (runId : UUID) (session : TradingSession) (refTime now : AwareDatetime) (symbol : Ticker) :
    Capture σ (Option ExecutionReference) := do
  let row (obs : ReferenceObservation) : Capture σ (Option ExecutionReference) := do
    let r ← orThrow (executionReference (observedRow runId .live session refTime now liveVersion obs))
    return some r
  if refTime.instant + e.config.liveCaptureGrace < now.instant then row (unresolved symbol refTime .noReferencePrice)
  else do
    let obs ← resolveLive symbol now
    if obs.status = .unresolved then return none else row obs

def captureLive (runId : UUID) (now : AwareDatetime) : Capture σ CaptureResult := do
  let found ← due e .live runId now
  match found with
  | .settled result => return result
  | .rows missing session refTime => do
    let rows ← missing.mapM (liveRow e runId session refTime now)
    if rows.filterMap id = [] then return ⟨.deferred, 0, ""⟩
    else do
      let n : Nat ← call (.recordExecutionReferences (rows.filterMap id))
      return ⟨if n = 0 then .deferred else .written, n, ""⟩

/-- `_backtest_observations`: a refusal that concerns every symbol decides the rest without asking. -/
def backtestObservations (session : TradingSession) (refTime : AwareDatetime) :
    Option RefReason → List Ticker → Capture σ (List ReferenceObservation)
  | _, [] => return []
  | some blocked, symbol :: symbols => do
    let rest ← backtestObservations session refTime (some blocked) symbols
    return unresolved symbol refTime blocked :: rest
  | none, symbol :: symbols => do
    let obs : ReferenceObservation × Option RefReason ← tryCatch (do
        let trades : List SipTrade ← call (.historicalTrades symbol session.openAt refTime)
        return (resolveBacktest symbol trades session refTime e.providerMap, none)) fun error =>
      match error with
      | .sipEntitlement => return (unresolved symbol refTime .sipEntitlement, some .sipEntitlement)
      | .incompleteTrades => return (unresolved symbol refTime .incompleteTrades, none)
      | error => throw error
    let rest ← backtestObservations session refTime obs.2 symbols
    return obs.1 :: rest

/-- The refusal that is known before any symbol is asked for. -/
def blockedAtOnce : Option RefReason := if anyValidated e.providerMap then none else some .providerMappingUnvalidated

def buildBacktest (runId : UUID) (now : AwareDatetime) : Capture σ CaptureResult := do
  let found ← due e .backtest runId now
  match found with
  | .settled result => return result
  | .rows missing session refTime => do
    let observations ← backtestObservations e session refTime (blockedAtOnce e) missing
    let rows ← observations.mapM fun obs =>
      orThrow (executionReference (observedRow runId .backtest session refTime now backtestVersion obs))
    let n : Nat ← call (.recordExecutionReferences rows)
    return ⟨.written, n, ""⟩

/-! ### Halt references -/

/-- `_halt_symbol_set`: the stored set, or else the one that is reconstructed now; none is no discovery. -/
def haltSymbolSet (req : HaltReferenceRequest) (now : AwareDatetime) : Capture σ (Option HaltSymbolSet) := do
  let existing : Option HaltSymbolSet ← call (.haltSymbolSet req.runId req.trigger)
  match existing with
  | some symbolSet => return some symbolSet
  | none => do
    let run : Option (RunRecord ℚ) ← call (.loadRun req.runId)
    match run with
    | none => return none
    | some run => do
      let groups ← symbolGroups e run
      let symbols := canonicalSymbols [groups.book, groups.members, groups.instruments]
      if hnonempty : symbols = [] then return none
      else if h : (symbols.map (·.val)).Pairwise (· < ·) ∧ 1 ≤ groups.version.length ∧ groups.version.length ≤ 128 then do
        let symbolSet : HaltSymbolSet := {
          runId := req.runId, trigger := req.trigger, symbols, symbolCount := symbols.length
          symbolsSha256 := e.sha256 (String.intercalate "\n" (symbols.map (·.val)))
          source := ⟨"committed_book+universe_snapshot+reference_instruments", by decide⟩
          sourceVersion := ⟨groups.version, h.2⟩
          resolvedAt := now, nonempty := hnonempty, sorted := h.1, counted := rfl }
        let _ : Nat ← call (.recordHaltSymbolSet symbolSet)
        return some symbolSet
      else throw .validation

/-- `_halt_row`. -/
def haltRow (req : HaltReferenceRequest) (symbolSet : HaltSymbolSet) (obs : ReferenceObservation) (now seen : AwareDatetime) :
    HaltReference where
  toObserved := obs.toObserved
  runId := req.runId
  trigger := req.trigger
  symbolRef := obs.symbolRef
  observedAt := seen
  lagSeconds := ((seen.instant - req.tau.instant : Int) : ℚ) / 1000000
  symbolSetSource := symbolSet.source
  symbolSetVersion := symbolSet.sourceVersion
  availableAt := now
  sourceVersion := haltVersion

/-- The live observation of one symbol; an unresolved one is left for a later sweep. -/
def haltLiveRow (req : HaltReferenceRequest) (symbolSet : HaltSymbolSet) (now : AwareDatetime) (symbol : Ticker) :
    Capture σ (Option HaltReference) := do
  let obs ← resolveLive symbol now
  return if obs.status = .resolved then some (haltRow req symbolSet obs now now) else none

/-- The mark of one symbol from the session's trades so far; an unresolved one is stored when it is final. -/
def reconstructedRow (req : HaltReferenceRequest) (symbolSet : HaltSymbolSet) (session : TradingSession) (now : AwareDatetime)
    (symbol : Ticker) : Capture σ (Option HaltReference) := do
  let stop : AwareDatetime :=
    if (now.plus (-sipDelay)).instant < session.closeAt.instant then now.plus (-sipDelay) else session.closeAt
  let obs ← tryCatch (do
      let trades : List SipTrade ← call (.historicalTrades symbol session.openAt stop)
      return reconstructHalt symbol trades req.tau [session] e.providerMap) fun error =>
    match error with
    | .sipEntitlement => return unresolved symbol now .sipEntitlement
    | .incompleteTrades => return unresolved symbol now .incompleteTrades
    | error => throw error
  if obs.status = .unresolved ∧ ¬session.closeAt.instant + sipDelay ≤ now.instant then return none
  else return some (haltRow req symbolSet obs now (obs.tradeTime.getD now))

/-- The session a halt is marked in; without coverage there is none. -/
def haltSession (req : HaltReferenceRequest) (now : AwareDatetime) : Capture σ (Option TradingSession) :=
  tryCatch (do
    let cal : TradingCalendar ← call (.tradingCalendar now)
    match cal.sessionClosingAfter req.tau (e.et req.tau.instant) with
    | .ok session => return some session
    | .error error => throw (.coverage error)) fun error =>
      match error with
      | .coverage _ => return none
      | error => throw error

/-- `_halt_by_reconstruction`: the first eligible SIP trade after the trigger, or what is known once it is final. -/
def haltByReconstruction (req : HaltReferenceRequest) (symbolSet : HaltSymbolSet) (missing : List Ticker)
    (now : AwareDatetime) : Capture σ (List HaltReference) := do
  let all (reason : RefReason) := missing.map fun s => haltRow req symbolSet (unresolved s now reason) now now
  let session ← haltSession e req now
  match session with
  | none =>
    if now.instant < req.requestedAt.instant + e.config.calendarCoverageWait then return []
    else return all .calendarUncovered
  | some session =>
    if now.instant < req.tau.instant + sipDelay then return []
    else if !anyValidated e.providerMap then
      if session.closeAt.instant + sipDelay ≤ now.instant then return all .providerMappingUnvalidated else return []
    else do
      let rows ← missing.mapM (reconstructedRow e req symbolSet session now)
      return rows.filterMap id

def recordRows (rows : List HaltReference) : Capture σ Nat :=
  if rows = [] then return 0 else call (.recordHaltReferences rows)

/-- `_resolve_halt`: close to the trigger the live rule, later the reconstruction. -/
def resolveHalt (req : HaltReferenceRequest) (now : AwareDatetime) : Capture σ Nat := do
  let found ← haltSymbolSet e req now
  match found with
  | none => return 0
  | some symbolSet => do
    let have_ : List HaltReference ← call (.haltReferences req.runId req.trigger)
    let missing := symbolSet.symbols.filter fun s => decide (s ∉ have_.map (·.symbolRef))
    if missing = [] then return 0
    else if now.instant - req.tau.instant ≤ e.config.haltLiveGrace then do
      let rows ← missing.mapM (haltLiveRow req symbolSet now)
      recordRows (rows.filterMap id)
    else do
      let rows ← haltByReconstruction e req symbolSet missing now
      recordRows rows

end Steps

/-! ### The tasks -/

/-- What a poll has written and which runs failed. -/
structure Poll where
  written : Nat
  errors : List (UUID × CaptureError)

/-- `run_lock`: the block under the lock, or without it when another worker has it. -/
def runLock {σ : Type} (runId : UUID) (stage : String) (block : Bool → Capture σ Unit) : Capture σ Unit := do
  let got : Bool ← call (.tryLock runId stage)
  let result : Except CaptureError Unit ← tryCatch (do
    block got
    return .ok ()) fun error => return .error error
  if got then
    let _ : Unit ← call (.unlock runId stage)
  orThrow result

section Tasks
variable (e : Service)

/-- The stage of a run's references. -/
def referencesStage : String := "references"

/-- The stage of a halt's references. -/
def haltStage (trigger : KillTrigger) : String := "halt_references:" ++ trigger.value

/-- The steps on one run, under its lock; what they raise is noted and the next run goes on. -/
def isolate (runId : UUID) (stage : String) (steps : Capture Poll Nat) : Capture Poll Unit :=
  tryCatch (runLock runId stage fun got => do
    if got then
      let n ← steps
      modify fun poll => { poll with written := poll.written + n }) fun error =>
    modify fun poll => { poll with errors := poll.errors ++ [(runId, error)] }

/-- `capture_due`: every recent committed LIVE run once. -/
def captureDue (now : AwareDatetime) : Capture Poll Unit := do
  let runs : List (RunRecord ℚ) ← call .listRuns
  runs.forM fun run => do
    if recent < now.instant - run.asOf.instant then return ()
    else isolate run.runId referencesStage do
      let result ← captureLive e run.runId now
      return result.written

/-- `sweep_halt_requests`. -/
def sweepHaltRequests (now : AwareDatetime) : Capture Poll Unit := do
  let pending : List HaltReferenceRequest ← call .pendingHaltRequests
  pending.forM fun req => isolate req.runId (haltStage req.trigger) (resolveHalt e req now)

/-- `capture_due_references` of `orchestration/tasks.py`. -/
def captureDueReferences : Capture Poll Unit := do
  let now ← readClock
  captureDue e now

/-- `sweep_halt_references`. -/
def sweepHaltReferences : Capture Poll Unit := do
  let now ← readClock
  sweepHaltRequests e now

/-- `build_backtest_references`. -/
def buildBacktestReferences (runId : UUID) : Capture Poll Unit :=
  runLock runId referencesStage fun got => do
    if got then
      let now ← readClock
      let _ ← buildBacktest e runId now

end Tasks

end ReferenceCapture
end AsymmetricCommittee
