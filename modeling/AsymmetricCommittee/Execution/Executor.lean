import AsymmetricCommittee.Execution.Gateway
import Mathlib.Algebra.Order.Floor.Ring

/-! Limit, cancel, market-residual execution of a rebalance (`execution/executor.py`). The book runs in shared phases;
    a name that fails is left out of the phases that follow, and its error is raised at the end. -/

namespace AsymmetricCommittee
namespace Executor
variable {K : Type} [Field K] [LinearOrder K]

/-! ### Prices and quantities -/

/-- `_EPS`. -/
def eps : K := 1e-6

/-- What the executor is configured with; times are in microseconds. -/
structure Options (K : Type) where
  collarBps : K
  limitWait : Int
  pollSeconds : Int
  pollAttempts : Nat

/-- Stable for a run and a security; the leg is `lim` or `mkt`. -/
def clientOrderId (runId : UUID) (securityId : SecurityId) (leg : String) : String :=
  runId.str ++ "-" ++ toString securityId.val ++ "-" ++ leg

/-- Positive is worse than the reference. -/
def slippageBps (side : OrderSide) (reference fill : K) : K :=
  (if side = .buy then 1 else -1) * (fill - reference) / reference * 10000

section Floor
variable [FloorRing K]

/-- The limit at the reference and its collar, rounded to a cent inside it. -/
def collarPrice (side : OrderSide) (reference collarBps : K) : K :=
  let factor : K := if side = .buy then 1 + collarBps / 10000 else 1 - collarBps / 10000
  let cents := reference * factor * 100
  ((if side = .buy then ⌊cents + eps⌋ else ⌈cents - eps⌉ : Int) : K) / 100

local instance two_atLeastTwo : Nat.AtLeastTwo 2 := inferInstance

local instance million_atLeastTwo : Nat.AtLeastTwo 1000000 := inferInstance

/-- The nearest integer, of two the even one. -/
def roundHalfEven (x : K) : Int :=
  if x - ⌊x⌋ < 1 / 2 then ⌊x⌋
  else if 1 / 2 < x - ⌊x⌋ then ⌊x⌋ + 1
  else if ⌊x⌋ % 2 = 0 then ⌊x⌋ else ⌊x⌋ + 1

/-- `round(x, 6)`. -/
def round6 (x : K) : K := (roundHalfEven (x * 1000000) : K) / 1000000

end Floor

/-- `_record`; a price that is not positive is refused. -/
def record (target : ExecutionTarget K) (order : BrokerOrder K) (price : K) (source : ReferenceSource) :
    Except ExecError (ExecutionRecord K) :=
  if h : 0 < target.decisionPrice ∧ 0 < price then
    let fill := if 0 < order.filledQty.val then order.filledAvgPrice else none
    .ok {
      runId := target.runId
      securityId := target.securityId
      clientOrderId := order.clientOrderId
      brokerOrderId := order.brokerOrderId
      kind := order.kind
      side := order.side
      qty := order.qty
      filledQty := order.filledQty
      limitPrice := order.limitPrice
      decisionPrice := ⟨target.decisionPrice, h.1⟩
      referencePrice := ⟨price, h.2⟩
      referenceSource := source
      fillPrice := fill
      slippageBps := fill.map fun fill => slippageBps order.side price fill.val
      status := order.status
      submittedAt := order.submittedAt
      filledAt := order.filledAt }
  else .error .validation

/-- What a name came to; complete when the target quantity is filled. -/
structure Outcome (K : Type) [Field K] [LinearOrder K] where
  records : List (ExecutionRecord K)
  filledQty : K
  complete : Bool
  blockedByKillSwitch : Bool

/-! ### One name -/

/-- One name's progress through the phases: what the last broker read said. `fresh` is the reference looked up, `price`
    the one its limit is collared around. -/
structure Leg (K : Type) [Field K] [LinearOrder K] where
  target : ExecutionTarget K
  lim : Option (BrokerOrder K)
  mkt : Option (BrokerOrder K)
  error : Option ExecError
  blocked : Bool
  toSubmit : Bool
  residual : K
  residualPending : Bool
  price : Option K
  fresh : Option (K × ReferenceSource)
  records : List (ExecutionRecord K)

namespace Leg

def limId (leg : Leg K) : String := clientOrderId leg.target.runId leg.target.securityId "lim"

def mktId (leg : Leg K) : String := clientOrderId leg.target.runId leg.target.securityId "mkt"

/-- The order being waited on: the market order once it exists, else the limit. -/
def current (leg : Leg K) : Option (BrokerOrder K) := leg.mkt.or leg.lim

def setCurrent (leg : Leg K) (order : BrokerOrder K) : Leg K :=
  if leg.mkt.isSome then { leg with mkt := some order } else { leg with lim := some order }

def live (leg : Leg K) : Bool := leg.error.isNone

/-- Whether there is an order to wait for. -/
def waiting (leg : Leg K) : Bool := leg.live && leg.current.any fun order => !order.status.terminal

/-- `_Leg.__init__`. -/
def init {σ : Type} (target : ExecutionTarget K) : Steps K σ (Leg K) := do
  let lim : Option (BrokerOrder K) ← request (.findByClientId (clientOrderId target.runId target.securityId "lim"))
  return {
    target, lim, mkt := none, error := none, blocked := false, toSubmit := false, residual := 0, residualPending := false,
    price := none, fresh := none, records := [] }

/-- `_Reference.get`: the reference already recorded for the limit order, else one lookup. -/
def reference : Steps K (Leg K) (K × ReferenceSource) := do
  let leg ← get
  let stored : Option (ExecutionRecord K) ← request (.findExecution leg.limId)
  match stored, leg.fresh with
  | some stored, _ => return (stored.referencePrice.val, stored.referenceSource)
  | none, some fresh => return fresh
  | none, none =>
    let fresh : K × ReferenceSource ← request (.reference leg.target)
    modify fun leg => { leg with fresh := some fresh }
    return fresh

def note (order : BrokerOrder K) : Steps K (Leg K) Unit := do
  let price ← reference
  let leg ← get
  let evidence ← orRaise (record leg.target order price.1 price.2)
  request (.recordExecutions [evidence])
  modify fun leg => { leg with records := leg.records ++ [evidence] }

/-- Outcome unknown: reconcile, never resubmit. -/
def readBack (clientOrderId : String) (f : Failure) : Steps K (Leg K) (BrokerOrder K) := do
  let found : Option (BrokerOrder K) ← request (.findByClientId clientOrderId)
  match found with
  | some order => return order
  | none => throw (.raised f)

/-- `_submit_once`. -/
def submitOnce (order : OrderRequest K) : Steps K (Leg K) (BrokerOrder K) := do
  let reply : Except Failure (BrokerOrder K) ← Act.ask (I := desk K) (.request (.submit order))
  match reply with
  | .ok placed => return placed
  | .error f => if f.isBroker then readBack order.clientOrderId f else throw (.raised f)

/-! ### A: submit -/

def openForSubmit (ks : KillSwitch) (leg : Leg K) : Leg K :=
  if leg.lim.isSome then leg
  else if ks.allows leg.target.side then { leg with toSubmit := true }
  else { leg with blocked := true }

def resolveReference : Steps K (Leg K) Unit := do
  let price ← reference
  modify fun leg => { leg with price := some price.1 }

/-- What `submit_limit` sends. -/
def limitOrder [FloorRing K] (o : Options K) (leg : Leg K) (price : K) : OrderRequest K where
  clientOrderId := leg.limId
  symbol := leg.target.symbol
  side := leg.target.side
  qty := leg.target.qty
  limitPrice := some (collarPrice leg.target.side price o.collarBps)

def submitLimit [FloorRing K] (o : Options K) (ks : KillSwitch) : Steps K (Leg K) Unit := do
  let leg ← get
  if ks.allows leg.target.side then
    match leg.price with
    | none => throw .assertion
    | some price =>
      let placed ← submitOnce (limitOrder o leg price)
      modify fun leg => { leg with lim := some placed }
      note placed
  else modify fun leg => { leg with blocked := true }

/-! ### C: cancel what is still working -/

/-- A cancel; a refusal means that the order is likely filled meanwhile, and the re-read decides. -/
def cancelOrder {σ : Type} (brokerOrderId : Label) : Steps K σ Unit := do
  let reply : Except Failure Unit ← Act.ask (I := desk K) (.request (.cancelOrder brokerOrderId))
  match reply with
  | .ok () | .error .orderNotCancelable => return ()
  | .error f => throw (.raised f)

def cancelLimit : Steps K (Leg K) Unit := do
  let leg ← get
  match leg.lim with
  | none => return ()
  | some lim =>
    if lim.status.terminal then return ()
    else
      let order : BrokerOrder K ← request (.getOrder lim.brokerOrderId)
      modify fun leg => { leg with lim := some order }
      if order.status.terminal then return () else cancelOrder order.brokerOrderId

/-! ### D: the limit's terminal state and the residual it leaves -/

/-- `_guard_overfill`. -/
def guardOverfill {σ : Type} (target : ExecutionTarget K) (filled : K) : Steps K σ Unit :=
  if target.qty + eps < filled then throw .overfill else return ()

/-- What is left to buy or sell after the limit. -/
def setResidual [FloorRing K] (lim : BrokerOrder K) (leg : Leg K) : Leg K :=
  let residual := round6 (leg.target.qty - lim.filledQty.val)
  { leg with residual := residual, residualPending := 0 < residual }

def closeLimit [FloorRing K] : Steps K (Leg K) Unit := do
  let leg ← get
  match leg.lim with
  | none => return ()
  | some lim =>
    note lim
    if lim.status.terminal then
      guardOverfill leg.target lim.filledQty.val
      if lim.status = .rejected then return () else modify (setResidual lim)
    else throw .cancelNotConfirmed

/-! ### E: market residual -/

/-- What `submit_market` sends. -/
def marketOrder (leg : Leg K) : OrderRequest K where
  clientOrderId := leg.mktId
  symbol := leg.target.symbol
  side := leg.target.side
  qty := leg.residual
  limitPrice := none

def submitMarket (ks : KillSwitch) : Steps K (Leg K) Unit := do
  let leg ← get
  let found : Option (BrokerOrder K) ← request (.findByClientId leg.mktId)
  match found with
  | some order => modify fun leg => { leg with mkt := some order }
  | none =>
    if ks.allows leg.target.side then
      let placed ← submitOnce (marketOrder leg)
      modify fun leg => { leg with mkt := some placed }
      note placed
    else modify fun leg => { leg with blocked := true }

def closeMarket : Steps K (Leg K) Unit := do
  let leg ← get
  match leg.mkt, leg.lim with
  | some mkt, some lim =>
    note mkt
    guardOverfill leg.target (lim.filledQty.val + mkt.filledQty.val)
  | _, _ => throw .assertion

def outcome (leg : Leg K) : Outcome K :=
  let filled := (leg.lim.elim 0 fun lim => lim.filledQty.val) + (leg.mkt.elim 0 fun mkt => mkt.filledQty.val)
  { records := leg.records
    filledQty := filled
    complete := |leg.target.qty - filled| ≤ eps
    blockedByKillSwitch := leg.blocked }

end Leg

/-! ### The book -/

/-- What the phases share. -/
structure Book where
  switch : Switch
  errors : List ExecError
  stopExposure : Bool

/-- Isolate the name; the first error is raised at the end. An overfill stops new exposure. -/
def guarded (step : KillSwitch → Steps K (Leg K) Unit) (leg : Leg K) : Steps K Book (Leg K) := do
  let book ← get
  let run : Except ExecError Unit × Leg K ← Act.isolated (step book.switch.trigger) leg
  match run with
  | (.ok (), leg) => return leg
  | (.error e, leg) =>
    modify fun book => { book with
      errors := book.errors ++ [e], stopExposure := book.stopExposure || e = .overfill }
    return { leg with error := some e }

/-- One phase: a step of each name that it concerns, in order. -/
def phase (concerns : Book → Leg K → Bool) (step : KillSwitch → Steps K (Leg K) Unit) (legs : List (Leg K)) :
    Steps K Book (List (Leg K)) :=
  legs.mapM fun leg => do
    let book ← get
    if concerns book leg then guarded step leg else return leg

/-- The switch's own steps. -/
def consult (gate : Option (Steps K Switch Unit)) : Steps K Book Unit :=
  match gate with
  | none => return ()
  | some gate => Act.zoom Book.switch (fun book switch => { book with switch }) gate

/-- `_wait_once`: one sleep covering every working limit's window, skipped once the switch is engaged. -/
def waitOnce (o : Options K) (legs : List (Leg K)) : Steps K Book Unit := do
  let book ← get
  let deadlines := ((legs.filter Leg.live).filterMap (·.lim)).filter (fun lim => !lim.status.terminal) |>.map
    fun lim => lim.submittedAt.instant + o.limitWait
  match book.switch.trigger.halted, deadlines.max? with
  | false, some deadline =>
    let now ← clock
    if 0 < deadline - now.instant then sleep (deadline - now.instant) else return ()
  | _, _ => return ()

/-- Re-read the order that a name waits for. -/
def awaitOne (leg : Leg K) : Steps K Book (Leg K) :=
  match leg.waiting, leg.current with
  | true, some current => do
    let order : BrokerOrder K ← request (.getOrder current.brokerOrderId)
    return leg.setCurrent order
  | _, _ => return leg

/-- `_await_all`: re-read until all are terminal or the attempts run out. -/
def awaitAll (pollSeconds : Int) : Nat → List (Leg K) → Steps K Book (List (Leg K))
  | 0, legs => return legs
  | n + 1, legs => do
    let legs ← legs.mapM awaitOne
    if legs.any Leg.waiting then
      sleep pollSeconds
      awaitAll pollSeconds n legs
    else return legs

/-- The first error, or the outcomes. -/
def conclude (legs : List (Leg K)) : Steps K Book (List (Outcome K)) := do
  let book ← get
  match book.errors with
  | e :: _ => throw e
  | [] => return legs.map Leg.outcome

variable [FloorRing K]

/-- Phases A to D: the limits, the wait, the cancels and what they leave. -/
def limitPhases (o : Options K) (legs : List (Leg K)) : Steps K Book (List (Leg K)) := do
  let legs ← phase (fun _ leg => leg.toSubmit) (fun _ => Leg.resolveReference) legs
  let legs ← phase (fun _ leg => leg.toSubmit && leg.live) (Leg.submitLimit o) legs
  waitOnce o legs
  let legs ← phase (fun _ leg => leg.live) (fun _ => Leg.cancelLimit) legs
  let legs ← awaitAll o.pollSeconds o.pollAttempts legs
  phase (fun _ leg => leg.live) (fun _ => Leg.closeLimit) legs

/-- Phase E: the residuals. -/
def marketPhase (o : Options K) (legs : List (Leg K)) : Steps K Book (List (Leg K)) := do
  let legs ← phase (fun book leg => leg.live && leg.residualPending && !book.stopExposure) Leg.submitMarket legs
  let legs ← awaitAll o.pollSeconds o.pollAttempts legs
  phase (fun _ leg => leg.live && leg.mkt.isSome) (fun _ => Leg.closeMarket) legs

def bookSteps (o : Options K) (targets : List (ExecutionTarget K)) (gate : Option (Steps K Switch Unit)) :
    Steps K Book (List (Outcome K)) := do
  if targets.any fun t => t.qty ≤ 0 then throw .targetQuantity
  else
    let legs ← targets.mapM Leg.init
    consult gate
    let book ← get
    let legs ← limitPhases o (legs.map (Leg.openForSubmit book.switch.trigger))
    consult gate
    let legs ← marketPhase o legs
    conclude legs

/-- `execute_book`: drive a whole rebalance through shared phases. -/
def executeBook (o : Options K) (targets : List (ExecutionTarget K)) (gate : Option (Steps K Switch Unit)) :
    Steps K Switch (List (Outcome K)) :=
  Act.zoom (fun switch => ⟨switch, [], false⟩) (fun _ book => book.switch) (bookSteps o targets gate)

end Executor
end AsymmetricCommittee
