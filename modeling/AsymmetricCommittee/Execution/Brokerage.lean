import AsymmetricCommittee.Execution.Executor

/-! The broker behind the gateway (`execution/gateway.py`). A client order id is accepted at most once, a terminal order does
    not change, and no more of an order is filled than its quantity. Orders fill at any time, every request may fail, and
    what was submitted may have been accepted though the reply is lost. -/

namespace AsymmetricCommittee
variable {K : Type} [Field K] [LinearOrder K]

def ExecutionTarget.limId (t : ExecutionTarget K) : String := Executor.clientOrderId t.runId t.securityId "lim"

def ExecutionTarget.mktId (t : ExecutionTarget K) : String := Executor.clientOrderId t.runId t.securityId "mkt"

namespace Brokerage
open Executor

/-! ### Orders -/

/-- An order at two times: its fills and its state may change until it is terminal. -/
structure Later (o o' : BrokerOrder K) : Prop where
  brokerOrderId : o'.brokerOrderId = o.brokerOrderId
  clientOrderId : o'.clientOrderId = o.clientOrderId
  side : o'.side = o.side
  qty : o'.qty = o.qty
  terminal : o.status.terminal = true → o' = o

theorem Later.refl (o : BrokerOrder K) : Later o o := ⟨rfl, rfl, rfl, rfl, fun _ => rfl⟩

theorem Later.trans {o o' o'' : BrokerOrder K} (h : Later o o') (h' : Later o' o'') : Later o o'' where
  brokerOrderId := h'.brokerOrderId.trans h.brokerOrderId
  clientOrderId := h'.clientOrderId.trans h.clientOrderId
  side := h'.side.trans h.side
  qty := h'.qty.trans h.qty
  terminal ht := by
    have hsame := h.terminal ht
    subst hsame
    exact h'.terminal ht

/-- What the broker keeps of its orders, which stand in the order in which they were accepted. -/
structure Kept (orders : List (BrokerOrder K)) : Prop where
  brokers : (orders.map (·.brokerOrderId)).Nodup
  clients : (orders.map (·.clientOrderId)).Nodup
  filled : ∀ o ∈ orders, o.filledQty.val ≤ o.qty.val

/-- The order is what was asked for. -/
structure Fits (r : OrderRequest K) (o : BrokerOrder K) : Prop where
  clientOrderId : o.clientOrderId.val = r.clientOrderId
  side : o.side = r.side
  qty : o.qty.val = r.qty

/-- The request was accepted as the order. -/
def Accepts (orders : List (BrokerOrder K)) (r : OrderRequest K) (o : BrokerOrder K) (orders' : List (BrokerOrder K)) : Prop :=
  Fits r o ∧ orders' = orders ++ [o] ∧ Kept orders'

/-- How the broker answers. A submission that fails may have been accepted. -/
def Answers (orders : List (BrokerOrder K)) : (c : DeskCall K) → c.Reply → List (BrokerOrder K) → Prop
  | .request (.findByClientId id), .ok (some o), orders' => orders' = orders ∧ o ∈ orders ∧ o.clientOrderId.val = id
  | .request (.findByClientId id), .ok none, orders' => orders' = orders ∧ ∀ o ∈ orders, o.clientOrderId.val ≠ id
  | .request (.getOrder id), .ok o, orders' => orders' = orders ∧ o ∈ orders ∧ o.brokerOrderId = id
  | .request (.submit r), .ok o, orders' => Accepts orders r o orders'
  | .request (.submit r), .error _, orders' => orders' = orders ∨ ∃ o, Accepts orders r o orders'
  | _, _, orders' => orders' = orders

/-- What happens at the broker on its own: orders change, and orders of other parties come in, whose client ids are not among
    `own`. -/
structure Moves (own : String → Prop) (orders orders' : List (BrokerOrder K)) : Prop where
  split : ∃ same more, orders' = same ++ more ∧ List.Forall₂ Later orders same ∧ ∀ o ∈ more, ¬own o.clientOrderId.val
  kept : Kept orders'

/-- The orders that a reply reports. -/
def reported : (c : DeskCall K) → c.Reply → List (BrokerOrder K)
  | .request (.findByClientId _), .ok (some o) => [o]
  | .request (.getOrder _), .ok o => [o]
  | .request (.submit _), .ok o => [o]
  | _, _ => []

/-! ### What a step can do -/

/-- Every order is still there, as it is then. -/
def Forward (orders orders' : List (BrokerOrder K)) : Prop := ∀ o ∈ orders, ∃ o' ∈ orders', Later o o'

section Steps
variable {orders orders' orders'' : List (BrokerOrder K)} {own : String → Prop}

theorem Forward.refl (orders : List (BrokerOrder K)) : Forward orders orders := fun o ho => ⟨o, ho, .refl o⟩

theorem Forward.trans (h : Forward orders orders') (h' : Forward orders' orders'') : Forward orders orders'' := by
  intro o ho
  obtain ⟨o', ho', hlater⟩ := h o ho
  obtain ⟨o'', ho'', hlater'⟩ := h' o' ho'
  exact ⟨o'', ho'', hlater.trans hlater'⟩

theorem Forward.terminal (h : Forward orders orders') {o : BrokerOrder K} (ho : o ∈ orders) (ht : o.status.terminal = true) :
    o ∈ orders' := by
  obtain ⟨o', ho', hlater⟩ := h o ho
  rwa [hlater.terminal ht] at ho'

theorem Accepts.forward {r : OrderRequest K} {o : BrokerOrder K} (h : Accepts orders r o orders') : Forward orders orders' := by
  obtain ⟨-, rfl, -⟩ := h
  exact fun o' ho' => ⟨o', List.mem_append_left _ ho', .refl o'⟩

theorem Accepts.mem {r : OrderRequest K} {o : BrokerOrder K} (h : Accepts orders r o orders') : o ∈ orders' := by
  obtain ⟨-, rfl, -⟩ := h
  exact List.mem_append_right _ (List.mem_singleton_self o)

/-- An answer leaves the orders, or one was accepted. -/
theorem Answers.cases {c : DeskCall K} {reply : c.Reply} (h : Answers orders c reply orders') :
    orders' = orders ∨ ∃ r o, c = .request (.submit r) ∧ Accepts orders r o orders' := by
  unfold Answers at h
  split at h
  · exact .inl h.1
  · exact .inl h.1
  · exact .inl h.1
  · exact .inr ⟨_, _, rfl, h⟩
  · rcases h with h | ⟨o, h⟩
    · exact .inl h
    · exact .inr ⟨_, o, rfl, h⟩
  · exact .inl h

theorem Answers.forward {c : DeskCall K} {reply : c.Reply} (h : Answers orders c reply orders') : Forward orders orders' := by
  rcases h.cases with rfl | ⟨r, o, -, h⟩
  · exact .refl _
  · exact h.forward

theorem Answers.mem_reported {c : DeskCall K} {reply : c.Reply} (h : Answers orders c reply orders') {o : BrokerOrder K}
    (ho : o ∈ reported c reply) : o ∈ orders' := by
  unfold reported at ho
  split at ho
  · obtain rfl := List.mem_singleton.mp ho
    obtain ⟨rfl, hmem, -⟩ := h
    exact hmem
  · obtain rfl := List.mem_singleton.mp ho
    obtain ⟨rfl, hmem, -⟩ := h
    exact hmem
  · obtain rfl := List.mem_singleton.mp ho
    exact h.mem
  · cases ho

theorem Moves.forward (h : Moves own orders orders') : Forward orders orders' := by
  obtain ⟨same, more, rfl, hsame, -⟩ := h.split
  intro o ho
  obtain ⟨o', ho', hlater⟩ := Forall₂.exists_of_mem_left hsame ho
  exact ⟨o', List.mem_append_left _ ho', hlater⟩

/-- The party's own orders were all there before. -/
theorem Moves.backward (h : Moves own orders orders') {o' : BrokerOrder K} (ho' : o' ∈ orders') (hown : own o'.clientOrderId.val) :
    ∃ o ∈ orders, Later o o' := by
  obtain ⟨same, more, rfl, hsame, hmore⟩ := h.split
  rcases List.mem_append.mp ho' with ho' | ho'
  · exact Forall₂.exists_of_mem_right hsame ho'
  · exact absurd hown (hmore o' ho')

/-- The broker knows an order by its own id. -/
theorem Kept.eq_of_brokerOrderId (h : Kept orders) {o o' : BrokerOrder K} (ho : o ∈ orders) (ho' : o' ∈ orders)
    (heq : o.brokerOrderId = o'.brokerOrderId) : o = o' := List.inj_on_of_nodup_map h.brokers ho ho' heq

/-- And by its client id. -/
theorem Kept.eq_of_clientOrderId (h : Kept orders) {o o' : BrokerOrder K} (ho : o ∈ orders) (ho' : o' ∈ orders)
    (heq : o.clientOrderId = o'.clientOrderId) : o = o' := List.inj_on_of_nodup_map h.clients ho ho' heq

/-- A client id has one order, if any. -/
theorem Kept.under (h : Kept orders) (id : String) :
    (orders.filter fun o => o.clientOrderId.val = id) = [] ∨
      ∃ o ∈ orders, o.clientOrderId.val = id ∧ (orders.filter fun o => o.clientOrderId.val = id) = [o] := by
  have hmem (o : BrokerOrder K) (ho : o ∈ orders.filter fun o => o.clientOrderId.val = id) :
      o ∈ orders ∧ o.clientOrderId.val = id := by simpa using ho
  have hclients : ((orders.filter fun o => o.clientOrderId.val = id).map (·.clientOrderId)).Nodup :=
    h.clients.sublist (List.filter_sublist.map _)
  generalize hfilter : (orders.filter fun o => o.clientOrderId.val = id) = found at hmem hclients
  rcases found with _ | ⟨o, _ | ⟨o', rest⟩⟩
  · exact .inl rfl
  · exact .inr ⟨o, (hmem o List.mem_cons_self).1, (hmem o List.mem_cons_self).2, rfl⟩
  · have hsame : o.clientOrderId = o'.clientOrderId := Subtype.ext
      ((hmem o List.mem_cons_self).2.trans (hmem o' (List.mem_cons_of_mem _ List.mem_cons_self)).2.symm)
    simp [hsame] at hclients

end Steps

/-! ### A broker that is always up -/

instance (orders : List (BrokerOrder K)) : Decidable (Kept orders) :=
  decidable_of_iff ((orders.map (·.brokerOrderId)).Nodup ∧ (orders.map (·.clientOrderId)).Nodup ∧
    ∀ o ∈ orders, o.filledQty.val ≤ o.qty.val) ⟨fun h => ⟨h.1, h.2.1, h.2.2⟩, fun h => ⟨h.brokers, h.clients, h.filled⟩⟩

instance (r : OrderRequest K) (o : BrokerOrder K) : Decidable (Fits r o) :=
  decidable_of_iff (o.clientOrderId.val = r.clientOrderId ∧ o.side = r.side ∧ o.qty.val = r.qty)
    ⟨fun h => ⟨h.1, h.2.1, h.2.2⟩, fun h => ⟨h.clientOrderId, h.side, h.qty⟩⟩

/-- It accepts what `place` makes of a request, if it may. -/
def serve (place : OrderRequest K → Option (BrokerOrder K)) (orders : List (BrokerOrder K)) :
    (c : DeskCall K) → c.Reply × List (BrokerOrder K)
  | .request (.findByClientId id) => (.ok (orders.find? fun o => o.clientOrderId.val = id), orders)
  | .request (.getOrder id) =>
    match orders.find? fun o => o.brokerOrderId = id with
    | some o => (.ok o, orders)
    | none => (.error .broker, orders)
  | .request (.submit r) =>
    match (place r).filter fun o => decide (Fits r o ∧ Kept (orders ++ [o])) with
    | some o => (.ok o, orders ++ [o])
    | none => (.error .duplicateClientOrder, orders)
  | .request (.cancelOrder _) => (.ok (), orders)
  | .request _ => (.error .other, orders)
  | .clock => (⟨0, 0⟩, orders)
  | .sleep _ => ((), orders)
  | .engage _ => ((), orders)

theorem answers_serve (place : OrderRequest K → Option (BrokerOrder K)) (orders : List (BrokerOrder K)) (c : DeskCall K) :
    Answers orders c (serve place orders c).1 (serve place orders c).2 := by
  cases c with
  | clock => exact rfl
  | sleep _ => exact rfl
  | engage _ => exact rfl
  | request r =>
    cases r with
    | findByClientId id =>
      simp only [serve]
      cases hfind : orders.find? fun o => o.clientOrderId.val = id with
      | none => exact ⟨rfl, fun o ho => of_decide_eq_false (by simpa using List.find?_eq_none.mp hfind o ho)⟩
      | some o => exact ⟨rfl, List.mem_of_find?_eq_some hfind, by simpa using List.find?_some hfind⟩
    | getOrder id =>
      simp only [serve]
      cases hfind : orders.find? fun o => o.brokerOrderId = id with
      | none => exact rfl
      | some o => exact ⟨rfl, List.mem_of_find?_eq_some hfind, by simpa using List.find?_some hfind⟩
    | submit sent =>
      simp only [serve]
      cases hplace : (place sent).filter fun o => decide (Fits sent o ∧ Kept (orders ++ [o])) with
      | none => exact .inl rfl
      | some o =>
        obtain ⟨hfits, hkept⟩ := of_decide_eq_true (Option.mem_filter_iff.mp hplace).2
        exact ⟨hfits, rfl, hkept⟩
    | _ => exact rfl

end Brokerage
end AsymmetricCommittee
