import AsymmetricCommittee.Execution.Executor

/-! The stored evidence of orders (`store/write.py`) and its writers: the legs of the executor (`execution/executor.py`) and
    the reconciliation of a run (`orchestration/execution_stage.py`). A writer asks the broker at one time and writes at
    a later one. -/

namespace AsymmetricCommittee
namespace OrderEvidence

section Rows
variable {K : Type} [Field K] [LinearOrder K]

/-- The columns of `_EXECUTION_MUTABLE`. -/
def setMutable (stored fresh : ExecutionRecord K) : ExecutionRecord K :=
  { stored with
    filledQty := fresh.filledQty
    status := fresh.status
    fillPrice := fresh.fillPrice
    slippageBps := fresh.slippageBps
    filledAt := fresh.filledAt
    submittedAt := fresh.submittedAt }

/-- One record of `upsert_execution_records`; none where another broker order has its client id. -/
def upsertRecord (orders : List (ExecutionRecord K)) (r : ExecutionRecord K) : Option (List (ExecutionRecord K)) :=
  if orders.any fun o => o.brokerOrderId = r.brokerOrderId then
    some (orders.map fun o => if o.brokerOrderId = r.brokerOrderId then setMutable o r else o)
  else if orders.any fun o => o.clientOrderId = r.clientOrderId then none
  else some (orders ++ [r])

/-- `upsert_execution_records`, in the transaction of `record_executions`. -/
def recordExecutions (orders records : List (ExecutionRecord K)) : Option (List (ExecutionRecord K)) :=
  records.foldlM upsertRecord orders

/-- `load_open_executions`. -/
def loadOpenExecutions (orders : List (ExecutionRecord K)) (runId : UUID) : List (ExecutionRecord K) :=
  (orders.filter fun o => o.runId = runId && !o.status.terminal).insertionSort
    fun a b => a.submittedAt.instant ≤ b.submittedAt.instant

/-- `refresh_record`; none for another order. -/
def refreshRecord (stored : ExecutionRecord K) (order : BrokerOrder K) : Option (ExecutionRecord K) :=
  if order.brokerOrderId ≠ stored.brokerOrderId then none
  else
    let fill := if 0 < order.filledQty.val then order.filledAvgPrice else none
    some { stored with
      filledQty := order.filledQty
      status := order.status
      fillPrice := fill
      slippageBps := fill.map fun fill => Executor.slippageBps stored.side stored.referencePrice.val fill.val
      filledAt := order.filledAt }

/-- Whether a refreshed record differs from the stored one. -/
def changed (stored fresh : ExecutionRecord K) : Bool :=
  (stored.filledQty, stored.status, stored.fillPrice, stored.slippageBps, stored.filledAt) ≠
    (fresh.filledQty, fresh.status, fresh.fillPrice, fresh.slippageBps, fresh.filledAt)

end Rows

/-! ### Several writers -/

section Writers
variable (K : Type) [Field K] [LinearOrder K]

/-- The orders and what their writers hold: open rows that were loaded, and records that are made and not written yet, each
    with the time at which the broker told its state. `stamp` is that time for the stored state of an order; no writer
    reads it. -/
structure System where
  now : Nat
  orders : List (ExecutionRecord K)
  loaded : List (ExecutionRecord K)
  held : List (Nat × ExecutionRecord K)
  stamp : Label → Nat

/-- What happens next: time passes, a leg notes an order, the reconciliation of a run loads its open rows or asks the broker
    for one of them, or a writer writes the record it holds, or is lost with it. -/
inductive Event where
  | tick
  | note (target : ExecutionTarget K) (price : K) (source : ReferenceSource) (order : Label)
  | load (runId : UUID)
  | refresh (row : Nat)
  | write (writer : Nat)
  | lost (writer : Nat)

variable {K}

def System.start : System K := ⟨0, [], [], [], fun _ => 0⟩

/-- The state after an event; none where it cannot happen. `broker` is what `get_order` returns at a time. A write that fails
    leaves the orders as they were. -/
def System.step (broker : Nat → Label → Option (BrokerOrder K)) (s : System K) : Event K → Option (System K)
  | .tick => some { s with now := s.now + 1 }
  | .note target price source id =>
    (broker s.now id).bind fun order =>
      match Executor.record target order price source with
      | .error _ => none
      | .ok r => some { s with held := s.held ++ [(s.now, r)] }
  | .load runId => some { s with loaded := s.loaded ++ loadOpenExecutions s.orders runId }
  | .refresh i =>
    s.loaded[i]?.bind fun stored =>
      (broker s.now stored.brokerOrderId).bind fun order =>
        (refreshRecord stored order).map fun fresh =>
          if changed stored fresh then { s with held := s.held ++ [(s.now, fresh)] } else s
  | .write i =>
    s.held[i]?.map fun e =>
      match recordExecutions s.orders [e.2] with
      | none => { s with held := s.held.eraseIdx i }
      | some orders => { s with
          orders := orders
          held := s.held.eraseIdx i
          stamp := fun id => if id = e.2.brokerOrderId then e.1 else s.stamp id }
  | .lost i => some { s with held := s.held.eraseIdx i }

def System.run (broker : Nat → Label → Option (BrokerOrder K)) (s : System K) (events : List (Event K)) : Option (System K) :=
  events.foldlM (System.step broker) s

/-- A write is late when the state of its order that is stored was read after its own. -/
def System.late (s : System K) : Event K → Bool
  | .write i => (s.held[i]?).any fun e =>
      decide (e.1 < s.stamp e.2.brokerOrderId) && s.orders.any fun o => o.brokerOrderId = e.2.brokerOrderId
  | _ => false

/-- No write of the events is late. -/
def System.onTime (broker : Nat → Label → Option (BrokerOrder K)) : System K → List (Event K) → Prop
  | _, [] => True
  | s, e :: rest => s.late e = false ∧ ∀ s', s.step broker e = some s' → s'.onTime broker rest

end Writers
end OrderEvidence
end AsymmetricCommittee
