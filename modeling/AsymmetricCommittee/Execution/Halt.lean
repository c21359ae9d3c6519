import AsymmetricCommittee.Execution.Executor

/-! Kill-switch actions (`execution/halt.py`): automatic halts cancel open orders, only a manual halt flattens. Each
    part of the controller works on the shared switch. -/

namespace AsymmetricCommittee
namespace Halt
variable {K : Type} [Field K] [LinearOrder K] {σ : Type}

/-- What the controller is configured with; times are in microseconds. -/
structure Options where
  runId : UUID
  pollSeconds : Int
  pollAttempts : Nat

/-- What the automatic triggers are evaluated with. -/
structure Limits (K : Type) where
  dailyLoss : K
  slaHours : List (FeedName × K)

/-- `_ROUNDS`. -/
def rounds : Nat := 3

/-! ### Cancelling -/

/-- `_confirm_terminal`. -/
def confirmTerminal (o : Options) (brokerOrderId : Label) : Nat → Steps K σ Unit
  | 0 => throw .cancelNotConfirmed
  | n + 1 => do
    let order : BrokerOrder K ← request (.getOrder brokerOrderId)
    if order.status.terminal then return ()
    else
      sleep o.pollSeconds
      confirmTerminal o brokerOrderId n

def confirmAll (o : Options) : List (BrokerOrder K) → Steps K σ Unit
  | [] => return ()
  | order :: orders => do
    confirmTerminal o order.brokerOrderId o.pollAttempts
    confirmAll o orders

/-- Cancel each; one that is already terminal is confirmed with the others. -/
def cancelEach : List (BrokerOrder K) → Steps K σ Unit
  | [] => return ()
  | order :: orders => do
    Executor.Leg.cancelOrder order.brokerOrderId
    cancelEach orders

/-- The rounds of list, cancel and confirm, then a last listing. -/
def cancelRounds (o : Options) : Nat → List Label → Steps K σ (List Label)
  | 0, cancelled => do
    let openOrders : List (BrokerOrder K) ← request .openOrders
    match openOrders with
    | [] => return cancelled
    | _ :: _ => throw .cancelNotConfirmed
  | n + 1, cancelled => do
    let openOrders : List (BrokerOrder K) ← request .openOrders
    match openOrders with
    | [] => return cancelled
    | order :: orders => do
      cancelEach (order :: orders)
      confirmAll o (order :: orders)
      cancelRounds o n (cancelled ++ (order :: orders).map (·.brokerOrderId))

/-- `_cancel_all_confirmed`: the orders that were cancelled. -/
def cancelAllConfirmed (o : Options) : Steps K σ (List Label) := cancelRounds o rounds []

/-! ### Halting -/

/-- Close every position that is not zero. -/
def closeEach : List (String × K) → Steps K σ Unit
  | [] => return ()
  | position :: positions => do
    if position.2 = 0 then closeEach positions
    else
      request (.closePosition position.1)
      closeEach positions

/-- What a halt has done so far: `cancelled` and `flattened`. -/
structure Done where
  cancelled : List Label
  flattened : Bool
  deriving DecidableEq

def flattenAll : Steps K Done Unit := do
  let positions : Dict String K ← request .positions
  closeEach positions.entries
  modify fun done => { done with flattened := true }

/-- The `try` block of `_halt`. -/
def act (o : Options) (flatten : Bool) : Steps K Done Unit := do
  let cancelled : List Label ← cancelAllConfirmed o
  modify fun done => { done with cancelled }
  if flatten then flattenAll (K := K) else return ()

/-- The event of a halt; only a manual halt flattens. -/
def haltEvent (o : Options) (trigger : KillTrigger) (loss drawdown : Option K) (at_ : AwareDatetime) (done : Done) :
    Except ExecError (KillSwitchEvent K) :=
  if h : done.flattened = true → trigger = .manual then
    .ok {
      runId := o.runId
      triggeredAt := at_
      trigger := trigger
      dailyLoss := loss
      peakDrawdown := drawdown
      cancelledOrderIds := done.cancelled
      flattened := done.flattened
      only_manual_flattens := h }
  else .error .validation

/-- `_halt`: the event is recorded also when the action fails. -/
def halt (o : Options) (trigger : KillTrigger) (flatten : Bool) (loss drawdown : Option K) : Steps K Switch Unit := do
  engage trigger
  let run : Except ExecError Unit × Done ← Act.isolated (act (K := K) o flatten) ⟨[], false⟩
  modify fun switch => { switch with flattened := switch.flattened || run.2.flattened }
  let now ← clock
  let event ← orRaise (haltEvent o trigger loss drawdown now run.2)
  let _ : Bool ← request (.recordHalt event)
  orRaise run.1

/-! ### Drawdown -/

/-- `_drawdown`: missing evidence is raised only where it is required. -/
def drawdown (current : K) (required : Bool) : Steps K σ (Option K) := do
  let history : List K ← request .equityHistory
  match KillSwitch.peakDrawdown history current with
  | .ok figures => return some figures.2
  | .error e => if required then throw (.equity e) else return none

/-- `_safe_drawdown`: best effort. -/
def safeDrawdown : Steps K σ (Option K) :=
  tryCatch (do
    let equity : K × K ← request .accountEquity
    drawdown equity.1 false) fun _ => return none

/-! ### Operations -/

/-- `check`: the automatic triggers against the broker's account. -/
def check (o : Options) (limits : Limits K) (lastSuccess : FeedName → Option AwareDatetime) : Steps K Switch Unit := do
  let switch ← get
  if switch.trigger.halted then return ()
  else
    let equity : K × K ← request .accountEquity
    let now ← clock
    let trigger ← orRaise ((KillSwitch.evaluate equity.1 equity.2 limits.dailyLoss lastSuccess limits.slaHours now).mapError
      .equity)
    match trigger with
    | none =>
      let _ ← drawdown equity.1 true
      return ()
    | some trigger =>
      let figure ← drawdown equity.1 false
      let loss ← orRaise ((KillSwitch.dailyLoss equity.1 equity.2).mapError .equity)
      halt o trigger false (some loss) figure

/-- `manual_halt`: engages the switch, also after an automatic halt. -/
def manualHalt (o : Options) (flatten : Bool) : Steps K Switch Unit := do
  let switch ← get
  if flatten && switch.flattened then return ()
  else
    let figure ← safeDrawdown (K := K)
    halt o .manual flatten none figure

/-- `settle_open_orders`: after a restart into a halted state; no event. -/
def settleOpenOrders (o : Options) : Steps K Switch (List Label) := do
  let switch ← get
  if switch.trigger.halted then cancelAllConfirmed o else return []

end Halt
end AsymmetricCommittee
