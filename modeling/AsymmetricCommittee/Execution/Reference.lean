import AsymmetricCommittee.Contracts.Data
import AsymmetricCommittee.Contracts.ReferenceRows
import AsymmetricCommittee.Evaluation.CalendarRules
import AsymmetricCommittee.Execution.ReferenceRules
import AsymmetricCommittee.Lib.Program

/-! The live reference price (`execution/reference.py`, `resolve_live` of `execution/reference_rules.py`), and what reference
    capture asks of its surroundings: the store, its locks and the data services. A float is a rational, or none when it is
    not finite. -/

namespace AsymmetricCommittee

/-- What reference capture raises: the errors that it tells apart, and any other exception. -/
inductive CaptureError where
  | raised
  | coverage (error : CalendarCoverageError)
  | sipEntitlement
  | incompleteTrades
  | noReferencePrice
  /-- `ImmutableConflictError`: the stored row has another value in the column. -/
  | immutableConflict (column : String)
  | notAStoredRun
  | validation
  deriving DecidableEq, Repr

inductive CaptureRequest where
  | listRuns
  | loadRun (runId : UUID)
  | loadCommittedAt (runId : UUID)
  | loadBook (runId : UUID)
  | members (asOf : AwareDatetime)
  | securities (ids : List SecurityId)
  | referenceInstruments
  | executionReferences (runId : UUID)
  | tradingCalendar (now : AwareDatetime)
  | iexQuote (symbol : Ticker)
  | sipLastTrade (symbol : Ticker) (atOrBefore : AwareDatetime)
  | historicalTrades (symbol : Ticker) (start stop : AwareDatetime)
  | recordExecutionReferences (rows : List ExecutionReference)
  | pendingHaltRequests
  | haltSymbolSet (runId : UUID) (trigger : KillTrigger)
  | recordHaltSymbolSet (symbolSet : HaltSymbolSet)
  | haltReferences (runId : UUID) (trigger : KillTrigger)
  | recordHaltReferences (rows : List HaltReference)
  | tryLock (runId : UUID) (stage : String)
  | unlock (runId : UUID) (stage : String)

/-- What each request returns. `listRuns` lists the LIVE runs from their commitment on, and a security is given by its
    ticker. -/
@[reducible] def CaptureRequest.Value : CaptureRequest → Type
  | .listRuns => List (RunRecord ℚ)
  | .loadRun _ => Option (RunRecord ℚ)
  | .loadCommittedAt _ => Option AwareDatetime
  | .loadBook _ => Option (ProposedBook ℚ)
  | .members _ => List (UniverseMember ℚ)
  | .securities _ => List (SecurityId × Ticker)
  | .referenceInstruments => List Ticker
  | .executionReferences _ => List ExecutionReference
  | .tradingCalendar _ => TradingCalendar
  | .iexQuote _ => Option (Option ℚ × Option ℚ)
  | .sipLastTrade _ _ => Option (Option ℚ)
  | .historicalTrades _ _ _ => List SipTrade
  | .recordExecutionReferences _ => Nat
  | .pendingHaltRequests => List HaltReferenceRequest
  | .haltSymbolSet _ _ => Option HaltSymbolSet
  | .recordHaltSymbolSet _ => Nat
  | .haltReferences _ _ => List HaltReference
  | .recordHaltReferences _ => Nat
  | .tryLock _ _ => Bool
  | .unlock _ _ => Unit

inductive CaptureCall where
  | request (r : CaptureRequest)
  | clock

@[reducible] def CaptureCall.Reply : CaptureCall → Type
  | .request r => Except CaptureError r.Value
  | .clock => AwareDatetime

/-- Everything reference capture calls. -/
abbrev captureDesk : Interface where
  Call := CaptureCall
  Reply c := c.Reply

/-- Steps of reference capture, with a state of their own. -/
abbrev Capture (σ α : Type) : Type := Act captureDesk σ CaptureError α

namespace Reference
variable {σ : Type}

/-- Make a request; what it raises is raised. -/
def call (r : CaptureRequest) : Capture σ r.Value := do
  let reply : Except CaptureError r.Value ← Act.ask (I := captureDesk) (.request r)
  match reply with
  | .ok a => pure a
  | .error e => throw e

def readClock : Capture σ AwareDatetime := Act.ask (I := captureDesk) .clock

/-- Raise the error. -/
def orThrow {α : Type} : Except CaptureError α → Capture σ α
  | .ok a => pure a
  | .error e => throw e

/-! ### The price -/

/-- `MAX_IEX_SPREAD_BPS`. -/
def maxIexSpreadBps : ℚ := 50

/-- `SIP_DELAY`. -/
def sipDelay : Int := 15 * 60000000

/-- `_positive`: a finite number above zero. -/
def positive? (x : Option ℚ) : Option (Positive ℚ) :=
  match x with
  | some x => if h : 0 < x then some ⟨x, h⟩ else none
  | none => none

theorem mid_pos {bid ask : ℚ} (hbid : 0 < bid) (hask : 0 < ask) : 0 < (bid + ask) / 2 := by
  linarith

/-- The midpoint of a quote whose spread is small enough. -/
def tightMid (quote : Option (Option ℚ × Option ℚ)) : Option (Positive ℚ) :=
  match quote with
  | none => none
  | some (bid, ask) =>
    match positive? bid, positive? ask with
    | some bid, some ask =>
      let mid : Positive ℚ := ⟨(bid.val + ask.val) / 2, mid_pos bid.property ask.property⟩
      if bid.val ≤ ask.val ∧ (ask.val - bid.val) / mid.val * 10000 ≤ maxIexSpreadBps then some mid else none
    | _, _ => none

/-- `reference_price`: the IEX midpoint when it is tight, else the latest SIP trade that is old enough. -/
def referencePrice (symbol : Ticker) (now : AwareDatetime) : Capture σ (Positive ℚ × ReferenceSource) := do
  let quote : Option (Option ℚ × Option ℚ) ← call (.iexQuote symbol)
  match tightMid quote with
  | some mid => return (mid, .iexMid)
  | none =>
    let trade : Option (Option ℚ) ← call (.sipLastTrade symbol (now.plus (-sipDelay)))
    match positive? trade.join with
    | some price => return (price, .sipLast)
    | none => throw .noReferencePrice

/-- The observation of a price; a live one has no trade behind it. -/
def liveObservation (symbol : Ticker) (at_ : AwareDatetime) (price : Positive ℚ) (source : ReferenceSource) :
    ReferenceObservation where
  status := .resolved
  reason := none
  price := some price
  source := some source
  tradeTime := none
  tradeTape := none
  tradeConditions := []
  tradeId := none
  resolved_evidence := fun _ => ⟨rfl, rfl, rfl⟩
  unresolved_evidence := nofun
  symbolRef := symbol
  refTime := at_

/-- `resolve_live`: the live rule; an absent price is evidence, not an exception. -/
def resolveLive (symbol : Ticker) (at_ : AwareDatetime) : Capture σ ReferenceObservation :=
  tryCatch (do
    let found ← referencePrice symbol at_
    return liveObservation symbol at_ found.1 found.2) fun error =>
      match error with
      | .noReferencePrice => return ReferenceRules.unresolved symbol at_ .noReferencePrice
      | error => throw error

end Reference
end AsymmetricCommittee
