import AsymmetricCommittee.Execution.Halt
import AsymmetricCommittee.Contracts.Samples
import AsymmetricCommittee.Execution.Traces

/-! What a halt does, whatever the broker answers: it closes positions only after every order it listed was read back
    terminal and a listing came back empty, and it hands one event to the recorder. The event tells what was cancelled
    when the cancelling came to its end. -/

namespace AsymmetricCommittee
namespace Halt
variable {K : Type} [Field K] [LinearOrder K] {σ : Type}

/-! ### Reading a trace -/

/-- The listed orders that were not read back terminal since, after one more event. -/
def unconfirmedStep (pending : List Label) : Event (desk K) → List Label
  | ⟨.request .openOrders, .ok orders⟩ => pending ++ List.map BrokerOrder.brokerOrderId orders
  | ⟨.request (.getOrder id), .ok order⟩ =>
    if (BrokerOrder.status order).terminal then pending.filter fun p => p ≠ id else pending
  | _ => pending

/-- The listed orders that were not read back terminal since. -/
def unconfirmed (w : Trace K) : List Label := w.foldl unconfirmedStep []

/-- Every order listed so far was read back terminal and a later listing was empty. -/
def Settled (w : Trace K) : Prop :=
  ∃ before after, w = before ++ returned .openOrders [] :: after ∧ unconfirmed before = [] ∧
    ∀ orders, returned .openOrders orders ∈ after → orders = []

/-- The positions were listed and each one that is not zero was closed without error. -/
def Flattened (w : Trace K) : Prop :=
  ∃ positions, returned .positions positions ∈ w ∧
    ∀ position ∈ positions.entries, position.2 ≠ 0 → returned (.closePosition position.1) () ∈ w

def Engaged (w : Trace K) : Prop := ∃ trigger, (⟨.engage trigger, ()⟩ : Event (desk K)) ∈ w

/-- The broker accepted a cancel request for the order. -/
def Accepted (id : Label) (w : Trace K) : Prop := returned (.cancelOrder id) () ∈ w

def Cancels : (desk K).Call → Prop
  | .request (.cancelOrder _) => True
  | _ => False

def Reads : (desk K).Call → Prop
  | .request (.getOrder _) | .sleep _ => True
  | _ => False

/-- The calls of the cancelling. -/
def Sweeps : (desk K).Call → Prop
  | .request .openOrders | .request (.getOrder _) | .request (.cancelOrder _) | .sleep _ => True
  | _ => False

def Closes : (desk K).Call → Prop
  | .request (.closePosition _) => True
  | _ => False

/-- An event is handed to the recorder. -/
def Records : (desk K).Call → Prop
  | .request (.recordHalt _) => True
  | _ => False

/-- The calls before a halt acts. -/
def Prepares : (desk K).Call → Prop
  | .request .accountEquity | .request .equityHistory | .clock | .engage _ => True
  | _ => False

/-- When a halt may close and cancel. -/
def Allowed : (desk K).Call → Trace K → Prop
  | .request (.closePosition _), w => Engaged w ∧ Settled w
  | .request (.cancelOrder _), w => Engaged w
  | _, _ => True

section Unconfirmed
variable {w : Trace K}

theorem unconfirmed_snoc (e : Event (desk K)) : unconfirmed (w ++ [e]) = unconfirmedStep (unconfirmed w) e := by
  simp [unconfirmed]

@[simp] theorem unconfirmed_listed (orders : List (BrokerOrder K)) :
    unconfirmed (w ++ [returned .openOrders orders]) = unconfirmed w ++ orders.map (·.brokerOrderId) := unconfirmed_snoc _

theorem unconfirmed_read (id : Label) (order : BrokerOrder K) :
    unconfirmed (w ++ [returned (.getOrder id) order]) =
      if order.status.terminal then (unconfirmed w).filter fun p => p ≠ id else unconfirmed w := unconfirmed_snoc _

@[simp] theorem unconfirmed_failed (r : Request K) (f : Failure) : unconfirmed (w ++ [failed r f]) = unconfirmed w := by
  rw [unconfirmed_snoc]
  cases r <;> rfl

@[simp] theorem unconfirmed_sleep (micros : Int) (u : Unit) :
    unconfirmed (w ++ [(⟨.sleep micros, u⟩ : Event (desk K))]) = unconfirmed w := unconfirmed_snoc _

@[simp] theorem unconfirmed_cancel (id : Label) (reply : Except Failure Unit) :
    unconfirmed (w ++ [(⟨.request (.cancelOrder id), reply⟩ : Event (desk K))]) = unconfirmed w := unconfirmed_snoc _

/-- Nothing is listed where no listing comes back. -/
theorem unconfirmed_append {evs : Trace K} (h : ∀ orders, returned .openOrders orders ∈ evs → orders = []) :
    unconfirmed (w ++ evs) ⊆ unconfirmed w := by
  induction evs using List.reverseRecOn with
  | nil => simp
  | append_singleton evs e ih =>
    have hevs := ih fun orders ho => h orders (List.mem_append_left [e] ho)
    rw [← List.append_assoc, unconfirmed_snoc]
    refine List.Subset.trans ?_ hevs
    rcases e with ⟨c, reply⟩
    unfold unconfirmedStep
    split
    · next orders he =>
      have horders := h orders (List.mem_append_right evs (List.mem_singleton.mpr he.symm))
      simp [horders]
    · split
      · exact List.filter_subset_self _
      · exact List.Subset.refl _
    · exact List.Subset.refl _

end Unconfirmed

/-! ### Cancelling -/

section Cancelling
variable {o : Options} {s : σ} {w : Trace K}

theorem Engaged.grew {kind : (desk K).Call → Prop} {w' : Trace K} (h : Engaged w) (hgrew : Grew kind w w') :
    Engaged w' := h.imp fun _ hmem => hgrew.mem hmem

theorem Engaged.snoc (h : Engaged w) (e : Event (desk K)) : Engaged (w ++ [e]) :=
  h.imp fun _ hmem => List.mem_append_left [e] hmem

theorem uses_cancelOrder (id : Label) : (Executor.Leg.cancelOrder id : Steps K σ Unit).Uses Cancels := by
  refine (Act.uses_ask trivial).bind fun reply => ?_
  rcases reply with (_ | _ | _ | _) | _
  · exact Act.uses_throw
  · exact Act.uses_pure
  · exact Act.uses_throw
  · exact Act.uses_throw
  · exact Act.uses_pure

theorem uses_cancelEach (orders : List (BrokerOrder K)) : (cancelEach orders : Steps K σ Unit).Uses Cancels := by
  induction orders with
  | nil => exact Act.uses_pure
  | cons order orders ih => exact (uses_cancelOrder _).bind fun _ => ih

theorem uses_confirmTerminal (id : Label) (n : Nat) : (confirmTerminal o id n : Steps K σ Unit).Uses Reads := by
  induction n with
  | zero => exact Act.uses_throw
  | succ n ih =>
    refine (uses_request trivial).bind fun order => ?_
    split
    · exact Act.uses_pure
    · exact (Act.uses_ask trivial).bind fun _ => ih

theorem uses_confirmAll (orders : List (BrokerOrder K)) : (confirmAll o orders : Steps K σ Unit).Uses Reads := by
  induction orders with
  | nil => exact Act.uses_pure
  | cons order orders ih => exact (uses_confirmTerminal _ _).bind fun _ => ih

/-- A cancel leaves the state and what is unconfirmed, and only the order can be one that it got accepted. -/
theorem cancelOrder_meets (s : σ) (id : Label) (hengaged : Engaged w) :
    (Executor.Leg.cancelOrder id).Meets (Contract.traced Allowed) s
      (fun _ s' w' => s' = s ∧ unconfirmed w' = unconfirmed w ∧ ∀ id', Accepted id' w' → Accepted id' w ∨ id' = id) w := by
  refine Contract.stays_traced.mpr ⟨hengaged, fun reply w' hw' _ => ?_⟩
  subst hw'
  have hpost : s = s ∧ unconfirmed (w ++ [⟨.request (.cancelOrder id), reply⟩]) = unconfirmed w ∧
      ∀ id', Accepted id' (w ++ [⟨.request (.cancelOrder id), reply⟩]) → Accepted id' w ∨ id' = id := by
    refine ⟨rfl, unconfirmed_cancel id reply, fun id' hid' => ?_⟩
    rcases List.mem_append.mp hid' with hid' | hid'
    · exact Or.inl hid'
    · cases List.mem_singleton.mp hid'
      exact Or.inr rfl
  rcases reply with (_ | _ | _ | _) | _
  all_goals exact Contract.stays_traced.mpr hpost

theorem cancelEach_meets (s : σ) (orders : List (BrokerOrder K)) (hengaged : Engaged w) :
    (cancelEach orders).Meets (Contract.traced Allowed) s
      (fun _ s' w' => s' = s ∧ unconfirmed w' = unconfirmed w ∧
        ∀ id, Accepted id w' → Accepted id w ∨ id ∈ orders.map (·.brokerOrderId)) w := by
  induction orders generalizing w with
  | nil => exact Contract.stays_traced.mpr ⟨rfl, rfl, fun _ h => Or.inl h⟩
  | cons order orders ih =>
    have hfirst := (uses_cancelOrder order.brokerOrderId).grows (cancelOrder_meets s _ hengaged)
    refine hfirst.bind ?_ ?_
    · rintro - s₁ w₁ - ⟨⟨rfl, hunc, hacc⟩, hgrew⟩
      refine (ih (hengaged.grew hgrew)).mono ?_
      rintro x s₂ w₂ - ⟨rfl, hunc', hacc'⟩
      refine ⟨rfl, hunc'.trans hunc, fun id hid => ?_⟩
      rcases hacc' id hid with hid | hid
      · exact (hacc id hid).imp_right fun h => by simp [h]
      · exact Or.inr (List.mem_cons_of_mem _ hid)
    · rintro e s₁ w₁ - ⟨⟨rfl, hunc, hacc⟩, -⟩
      exact ⟨rfl, hunc, fun id hid => (hacc id hid).imp_right fun h => by simp [h]⟩

theorem confirmTerminal_meets (id : Label) (n : Nat) :
    (confirmTerminal o id n).Meets (Contract.traced Allowed) s
      (fun x s' w' => s' = s ∧ unconfirmed w' ⊆ unconfirmed w ∧ (x = .ok () → id ∉ unconfirmed w')) w := by
  induction n generalizing w with
  | zero => exact Contract.stays_traced.mpr ⟨rfl, List.Subset.refl _, nofun⟩
  | succ n ih =>
    refine meets_request_bind trivial (fun order => ?_) fun f => ⟨rfl, by simp, nofun⟩
    split
    · next hterminal =>
      refine Contract.stays_traced.mpr ⟨rfl, ?_, fun _ => ?_⟩
      · rw [unconfirmed_read, if_pos hterminal]
        exact List.filter_subset_self _
      · rw [unconfirmed_read, if_pos hterminal]
        simp
    · next hworking =>
      refine Act.meets_ask_bind.mpr (Contract.stays_traced.mpr ⟨trivial, fun u w' hw' _ => ?_⟩)
      subst hw'
      refine ih.mono ?_
      rintro x s' w' - ⟨hs, hunc, hconfirmed⟩
      refine ⟨hs, List.Subset.trans hunc ?_, hconfirmed⟩
      rw [unconfirmed_sleep, unconfirmed_read, if_neg hworking]
      exact List.Subset.refl _

theorem confirmAll_meets (orders : List (BrokerOrder K)) :
    (confirmAll o orders).Meets (Contract.traced Allowed) s
      (fun x s' w' => s' = s ∧ unconfirmed w' ⊆ unconfirmed w ∧
        (x = .ok () → ∀ order ∈ orders, order.brokerOrderId ∉ unconfirmed w')) w := by
  induction orders generalizing w with
  | nil => exact Contract.stays_traced.mpr ⟨rfl, List.Subset.refl _, fun _ _ h => absurd h List.not_mem_nil⟩
  | cons order orders ih =>
    refine (confirmTerminal_meets order.brokerOrderId o.pollAttempts).bind ?_ ?_
    · rintro u s₁ w₁ - ⟨rfl, hunc, hconfirmed⟩
      refine ih.mono ?_
      rintro x s₂ w₂ - ⟨rfl, hunc', hconfirmed'⟩
      refine ⟨rfl, List.Subset.trans hunc' hunc, fun hx order' horder' => ?_⟩
      rcases List.mem_cons.mp horder' with rfl | horder'
      · exact fun hmem => hconfirmed rfl (hunc' hmem)
      · exact hconfirmed' hx order' horder'
    · rintro e s₁ w₁ - ⟨rfl, hunc, -⟩
      exact ⟨rfl, hunc, nofun⟩

/-- A round that ends leaves nothing unconfirmed, and no order but those it listed can be newly cancelled. -/
theorem round_meets (orders : List (BrokerOrder K)) (hengaged : Engaged w)
    (hunc : unconfirmed w ⊆ orders.map (·.brokerOrderId)) (hlisted : returned .openOrders [] ∉ w) :
    (cancelEach orders >>= fun _ => confirmAll o orders).Meets (Contract.traced Allowed) s
      (fun x s' w' => s' = s ∧ Engaged w' ∧ returned .openOrders [] ∉ w' ∧ (x = .ok () → unconfirmed w' = []) ∧
        ∀ id, Accepted id w' → Accepted id w ∨ id ∈ orders.map (·.brokerOrderId)) w := by
  have hcancel := (uses_cancelEach orders).grows (cancelEach_meets s orders hengaged)
  refine hcancel.bind ?_ ?_
  · rintro u s₁ w₁ - ⟨⟨rfl, hunc₁, hacc⟩, hgrew⟩
    refine ((uses_confirmAll orders).grows (confirmAll_meets orders)).mono ?_
    rintro x s₂ w₂ - ⟨⟨rfl, hunc₂, hconfirmed⟩, hgrew'⟩
    refine ⟨rfl, (hengaged.grew hgrew).grew hgrew', ?_, fun hx => ?_, fun id hid => ?_⟩
    · rw [hgrew'.mem_iff _ id, hgrew.mem_iff _ id]
      exact hlisted
    · refine List.eq_nil_iff_forall_not_mem.mpr fun id hid => ?_
      obtain ⟨order, horder, rfl⟩ := List.mem_map.mp (hunc (hunc₁ ▸ hunc₂ hid))
      exact hconfirmed hx order horder hid
    · exact hacc id ((hgrew'.mem_iff (returned (.cancelOrder id) ()) fun h => h).mp hid)
  · rintro e s₁ w₁ - ⟨⟨rfl, -, hacc⟩, hgrew⟩
    refine ⟨rfl, hengaged.grew hgrew, ?_, nofun, hacc⟩
    rw [hgrew.mem_iff _ id]
    exact hlisted

@[simp] theorem accepted_listed (id : Label) (orders : List (BrokerOrder K)) :
    Accepted id (w ++ [returned .openOrders orders]) ↔ Accepted id w := by
  simp [Accepted, returned]

/-- The rounds end with everything confirmed and every accepted cancel listed, or they fail and no listing was empty. -/
theorem cancelRounds_meets (n : Nat) (cancelled : List Label) (hengaged : Engaged w) (hunc : unconfirmed w = [])
    (hcancelled : ∀ id, Accepted id w → id ∈ cancelled) (hlisted : returned .openOrders [] ∉ w) :
    (cancelRounds o n cancelled).Meets (Contract.traced Allowed) s
      (Act.post (fun ids s' w' => s' = s ∧ Settled w' ∧ ∀ id, Accepted id w' → id ∈ ids)
        fun s' w' => s' = s ∧ returned .openOrders [] ∉ w') w := by
  induction n generalizing w cancelled with
  | zero =>
    refine meets_request_bind trivial (fun orders => ?_) fun f => ⟨rfl, by simp [hlisted]⟩
    rcases orders with _ | ⟨order, orders⟩
    · exact Contract.stays_traced.mpr ⟨rfl, ⟨w, [], rfl, hunc, nofun⟩, by simpa using hcancelled⟩
    · exact Contract.stays_traced.mpr ⟨rfl, by simp [hlisted]⟩
  | succ n ih =>
    refine meets_request_bind trivial (fun orders => ?_) fun f => ⟨rfl, by simp [hlisted]⟩
    rcases orders with _ | ⟨order, orders⟩
    · exact Contract.stays_traced.mpr ⟨rfl, ⟨w, [], rfl, hunc, nofun⟩, by simpa using hcancelled⟩
    · change Act.Meets _ (cancelEach (order :: orders) >>= fun _ => confirmAll o (order :: orders) >>= fun _ =>
        cancelRounds o n (cancelled ++ (order :: orders).map (·.brokerOrderId))) _ _ _
      rw [← bind_assoc]
      refine (round_meets (order :: orders) ?_ ?_ ?_).bind ?_ ?_
      · exact hengaged.snoc _
      · simp [hunc]
      · simp [hlisted]
      · rintro u s₁ w₁ - ⟨rfl, hengaged₁, hlisted₁, hunc₁, hacc⟩
        refine ih _ hengaged₁ (hunc₁ rfl) (fun id hid => List.mem_append.mpr ?_) hlisted₁
        exact (hacc id hid).imp_left fun h => hcancelled id (by simpa using h)
      · rintro e s₁ w₁ - ⟨rfl, -, hlisted₁, -, -⟩
        exact ⟨rfl, hlisted₁⟩

/-- Sweeping what is open, in a trace that listed nothing before. -/
theorem uses_cancelRounds (n : Nat) (cancelled : List Label) : (cancelRounds o n cancelled : Steps K σ _).Uses Sweeps := by
  induction n generalizing cancelled with
  | zero =>
    refine (uses_request trivial).bind fun orders => ?_
    rcases orders with _ | ⟨order, orders⟩
    · exact Act.uses_pure
    · exact Act.uses_throw
  | succ n ih =>
    refine (uses_request trivial).bind fun orders => ?_
    rcases orders with _ | ⟨order, orders⟩
    · exact Act.uses_pure
    · refine (Act.Uses.mono (uses_cancelEach _) ?_).bind fun _ => (Act.Uses.mono (uses_confirmAll _) ?_).bind fun _ => ih _
      · intro c hc
        unfold Cancels at hc
        split at hc
        · trivial
        · cases hc
      · intro c hc
        unfold Reads at hc
        split at hc
        · trivial
        · trivial
        · cases hc

end Cancelling

/-! ### Closing -/

section Closing
variable {o : Options} {s : σ} {w : Trace K}

theorem Settled.grew {kind : (desk K).Call → Prop} {w' : Trace K} (h : Settled w) (hgrew : Grew kind w w')
    (hk : ¬kind (.request .openOrders)) : Settled w' := by
  obtain ⟨before, after, rfl, hunc, hafter⟩ := h
  obtain ⟨evs, rfl, hevs⟩ := hgrew
  refine ⟨before, after ++ evs, by simp, hunc, fun orders horders => ?_⟩
  rcases List.mem_append.mp horders with h | h
  · exact hafter orders h
  · exact absurd (hevs _ h) hk

theorem Settled.unconfirmed_eq (h : Settled w) : unconfirmed w = [] := by
  obtain ⟨before, after, rfl, hunc, hafter⟩ := h
  have hsub : unconfirmed (before ++ returned .openOrders [] :: after) ⊆ unconfirmed before := by
    refine unconfirmed_append fun orders horders => ?_
    rcases List.mem_cons.mp horders with h | h
    · exact returned_inj.mp h
    · exact hafter orders h
  rw [hunc] at hsub
  exact List.subset_nil.mp hsub

theorem Settled.listed (h : Settled w) : returned .openOrders [] ∈ w := by
  obtain ⟨before, after, rfl, -, -⟩ := h
  simp

theorem uses_closeEach (positions : List (String × K)) : (closeEach positions : Steps K σ Unit).Uses Closes := by
  induction positions with
  | nil => exact Act.uses_pure
  | cons position positions ih =>
    rw [closeEach]
    split
    · exact ih
    · exact (uses_request trivial).bind fun _ => ih

theorem closed_grew (symbol : String) (u : Unit) : Grew Closes w (w ++ [returned (.closePosition symbol) u]) :=
  Grew.refl.snoc trivial

theorem closeEach_meets (positions : List (String × K)) (hengaged : Engaged w) (hsettled : Settled w)
    (hkeys : (positions.map Prod.fst).Nodup) (hopen : ∀ p ∈ positions, returned (.closePosition p.1) () ∉ w) :
    (closeEach positions).Meets (Contract.traced Allowed) s
      (Act.post (fun _ s' w' => s' = s ∧ ∀ p ∈ positions, p.2 ≠ 0 → returned (.closePosition p.1) () ∈ w')
        fun s' w' => s' = s ∧ ∃ p ∈ positions, p.2 ≠ 0 ∧ returned (.closePosition p.1) () ∉ w') w := by
  induction positions generalizing w with
  | nil => exact Contract.stays_traced.mpr ⟨rfl, fun _ h => absurd h List.not_mem_nil⟩
  | cons p positions ih =>
    obtain ⟨hp, hkeys⟩ := List.nodup_cons.mp hkeys
    have hopen' : ∀ q ∈ positions, returned (.closePosition q.1) () ∉ w := fun q hq => hopen q (List.mem_cons_of_mem p hq)
    rw [closeEach]
    split
    · next hzero =>
      refine (ih hengaged hsettled hkeys hopen').mono ?_
      rintro (e | u) s' w' -
      · rintro ⟨hs, q, hq, hclosed⟩
        exact ⟨hs, q, List.mem_cons_of_mem p hq, hclosed⟩
      · rintro ⟨hs, hclosed⟩
        refine ⟨hs, fun q hq hne => ?_⟩
        rcases List.mem_cons.mp hq with rfl | hq
        · exact absurd hzero hne
        · exact hclosed q hq hne
    · next hne =>
      refine meets_request_bind ⟨hengaged, hsettled⟩ (fun u => ?_) fun f => ?_
      · have hmeets := ih (hengaged.snoc (returned (.closePosition p.1) u))
          (hsettled.grew (closed_grew p.1 u) id) hkeys fun q hq hmem => ?_
        · refine ((uses_closeEach positions).grows hmeets).mono ?_
          rintro (e | v) s' w' - ⟨hx, hgrew⟩
          · obtain ⟨hs, q, hq, hclosed⟩ := hx
            exact ⟨hs, q, List.mem_cons_of_mem p hq, hclosed⟩
          · obtain ⟨hs, hclosed⟩ := hx
            refine ⟨hs, fun q hq hneq => ?_⟩
            rcases List.mem_cons.mp hq with rfl | hq
            · exact hgrew.mem (List.mem_append_right w (List.mem_singleton.mpr rfl))
            · exact hclosed q hq hneq
        · rcases List.mem_append.mp hmem with h | h
          · exact hopen' q hq h
          · have hsymbol := request_eq_of_returned (List.mem_singleton.mp h)
            simp only [Request.closePosition.injEq] at hsymbol
            exact hp (List.mem_map.mpr ⟨q, hq, hsymbol⟩)
      · refine ⟨rfl, p, List.mem_cons_self, hne, ?_⟩
        simp [hopen p List.mem_cons_self]

/-- The calls of a flatten. -/
def Flattens : (desk K).Call → Prop
  | .request .positions | .request (.closePosition _) => True
  | _ => False

theorem flattens_of_closes {c : (desk K).Call} (h : Closes c) : Flattens c := by
  unfold Closes at h
  split at h
  · trivial
  · cases h

theorem uses_flattenAll : (flattenAll : Steps K Done Unit).Uses Flattens :=
  (uses_request trivial).bind fun _ =>
    (Act.Uses.mono (uses_closeEach _) fun _ => flattens_of_closes).bind fun _ => Act.uses_modify

/-- A flatten is noted exactly when every position it found was closed. -/
theorem flattenAll_meets (ids : List Label) (hengaged : Engaged w) (hsettled : Settled w)
    (hunlisted : ∀ positions, returned .positions positions ∉ w) (hopen : ∀ e ∈ w, ¬Closes e.call) :
    flattenAll.Meets (Contract.traced Allowed) ⟨ids, false⟩
      (fun _ done w' => done.cancelled = ids ∧ (done.flattened = true ↔ Flattened w')) w := by
  refine meets_request_bind trivial (fun positions => ?_) fun f => ⟨rfl, nofun, ?_⟩
  · have hgrew : Grew Flattens w (w ++ [returned .positions positions]) := Grew.refl.snoc trivial
    have hclose := closeEach_meets (s := (⟨ids, false⟩ : Done)) positions.entries (hengaged.grew hgrew)
      (hsettled.grew hgrew id) positions.nodup fun p _ hmem => ?_
    · refine ((uses_closeEach positions.entries).grows hclose).bind ?_ ?_
      · rintro u done w₂ - ⟨⟨rfl, hclosed⟩, hgrew₂⟩
        refine Contract.stays_traced.mpr ⟨rfl, fun _ => ⟨positions, hgrew₂.mem ?_, hclosed⟩, fun _ => rfl⟩
        exact List.mem_append_right w (List.mem_singleton.mpr rfl)
      · rintro e done w₂ - ⟨⟨rfl, p, hp, hne, hclosed⟩, hgrew₂⟩
        refine ⟨rfl, nofun, fun ⟨positions', hmem, hall⟩ => ?_⟩
        rcases List.mem_append.mp ((hgrew₂.mem_iff (returned .positions positions') id).mp hmem) with h | h
        · exact absurd h (hunlisted positions')
        · have heq := returned_inj.mp (List.mem_singleton.mp h)
          exact absurd (hall p (heq ▸ hp) hne) hclosed
    · rcases List.mem_append.mp hmem with h | h
      · exact hopen _ h trivial
      · exact absurd (request_eq_of_returned (List.mem_singleton.mp h)) nofun
  · rintro ⟨positions, hmem, -⟩
    rcases List.mem_append.mp hmem with h | h
    · exact absurd h (hunlisted positions)
    · exact absurd (List.mem_singleton.mp h) returned_ne_failed

end Closing

/-! ### Halting -/

section Halting
variable {o : Options} {flatten : Bool} {trigger : KillTrigger} {loss drawdown : Option K} {s : Switch} {w : Trace K}

/-- What the action of a halt has done, as its trace tells. -/
structure Acted (flatten : Bool) (done : Done) (w : Trace K) : Prop where
  flattened : done.flattened = true ↔ flatten = true ∧ Flattened w
  unclosed : unconfirmed w ≠ [] → ∀ e ∈ w, ¬Closes e.call
  complete : returned .openOrders [] ∈ w → ∀ id, Accepted id w → id ∈ done.cancelled
  incomplete : returned .openOrders [] ∉ w → done.cancelled = []

/-- Nothing but looks and the engaging of the switch so far. -/
def Prepared (w : Trace K) : Prop := ∀ e ∈ w, Prepares e.call

theorem Prepared.notMem (h : Prepared w) {e : Event (desk K)} (he : ¬Prepares e.call) : e ∉ w := fun hmem => he (h e hmem)

theorem Prepared.unconfirmed_eq (h : Prepared w) : unconfirmed w = [] := by
  have hsub : unconfirmed ([] ++ w) ⊆ unconfirmed [] :=
    unconfirmed_append fun orders horders => absurd horders (h.notMem id)
  exact List.subset_nil.mp hsub

theorem not_of_closes {c : (desk K).Call} (h : Closes c) : ¬Sweeps c ∧ ¬Prepares c ∧ c ≠ .request .positions := by
  unfold Closes at h
  split at h
  · exact ⟨id, id, nofun⟩
  · cases h

theorem act_meets (hengaged : Engaged w) (hw : Prepared w) :
    (act o flatten).Meets (Contract.traced Allowed) ⟨[], false⟩ (fun _ done w' => Acted flatten done w') w := by
  have hsweep := (uses_cancelRounds rounds []).grows (cancelRounds_meets (o := o) (s := (⟨[], false⟩ : Done)) rounds []
    hengaged hw.unconfirmed_eq (fun id hid => absurd hid (hw.notMem fun h => h)) (hw.notMem id))
  refine hsweep.bind ?_ ?_
  · rintro ids done w₁ - ⟨⟨rfl, hsettled, hids⟩, hgrew⟩
    have hopen := hgrew.forall_not (fun e he hP => (not_of_closes hP).2.1 (hw e he)) fun c hP => (not_of_closes hP).1
    have hunlisted : ∀ positions, returned .positions positions ∉ w₁ := fun positions hmem =>
      hw.notMem id ((hgrew.mem_iff (returned .positions positions) id).mp hmem)
    refine Act.meets_modify_bind.mpr ?_
    split
    · next hflatten =>
      have hflat := flattenAll_meets ids (hengaged.grew hgrew) hsettled hunlisted hopen
      refine (uses_flattenAll.grows hflat).mono ?_
      rintro x done w₂ - ⟨⟨rfl, hflattened⟩, hgrew₂⟩
      have hsettled₂ := hsettled.grew hgrew₂ id
      refine ⟨by simp [hflatten, hflattened], fun h => absurd hsettled₂.unconfirmed_eq h, fun _ id hid => ?_, ?_⟩
      · exact hids id ((hgrew₂.mem_iff (returned (.cancelOrder id) ()) fun h => h).mp hid)
      · exact fun h => absurd hsettled₂.listed h
    · next hkeep =>
      refine Contract.stays_traced.mpr ⟨?_, fun h => absurd hsettled.unconfirmed_eq h, fun _ => hids, ?_⟩
      · simp [hkeep]
      · exact fun h => absurd hsettled.listed h
  · rintro e done w₁ - ⟨⟨rfl, hlisted⟩, hgrew⟩
    refine ⟨⟨nofun, ?_⟩, fun _ => ?_, fun h => absurd h hlisted, fun _ => rfl⟩
    · rintro ⟨-, positions, hmem, -⟩
      exact absurd ((hgrew.mem_iff (returned .positions positions) id).mp hmem) (hw.notMem id)
    · exact hgrew.forall_not (fun e he hP => (not_of_closes hP).2.1 (hw e he)) fun c hP => (not_of_closes hP).1

/-- One event was handed to the recorder, at the end, and it tells what was done. -/
def Recorded (flatten : Bool) (w : Trace K) : Prop :=
  ∃ before event reply, w = before ++ [(⟨.request (.recordHalt event), reply⟩ : Event (desk K))] ∧
    (∀ e ∈ before, ¬Records e.call) ∧ Acted flatten ⟨event.cancelledOrderIds, event.flattened⟩ before

theorem Acted.clock {done : Done} (h : Acted flatten done w) (t : AwareDatetime) :
    Acted flatten done (w ++ [(⟨.clock, t⟩ : Event (desk K))]) := by
  have hgrew : Grew (fun c : DeskCall K => c = .clock) w (w ++ [(⟨.clock, t⟩ : Event (desk K))]) := Grew.refl.snoc rfl
  have hmem {r : Request K} {v : r.Value} :
      returned r v ∈ w ++ [(⟨.clock, t⟩ : Event (desk K))] ↔ returned r v ∈ w := hgrew.mem_iff (returned r v) nofun
  refine ⟨?_, fun hunc e he => ?_, fun hlisted id hid => ?_, fun hlisted => ?_⟩
  · simp only [h.flattened, Flattened, hmem]
  · rw [unconfirmed_snoc] at hunc
    exact hgrew.forall_not (h.unclosed hunc) (fun c hc hclock => by subst hclock; exact hc) e he
  · exact h.complete (hmem.mp hlisted) id (hmem.mp hid)
  · exact h.incomplete fun hl => hlisted (hmem.mpr hl)

theorem not_of_records {c : (desk K).Call} (h : Records c) : ¬Prepares c ∧ ¬Sweeps c ∧ ¬Flattens c := by
  unfold Records at h
  split at h
  · exact ⟨id, id, id⟩
  · cases h

theorem uses_act : (act o flatten : Steps K Done Unit).Uses fun c => ¬Records c := by
  refine (Act.Uses.mono (uses_cancelRounds _ _) fun c hc hrec => (not_of_records hrec).2.1 hc).bind fun ids =>
    Act.uses_modify.bind fun _ => ?_
  split
  · exact Act.Uses.mono uses_flattenAll fun c hc hrec => (not_of_records hrec).2.2 hc
  · exact Act.uses_pure

/-- A halt that ends has engaged the switch, and has handed one event to the recorder. -/
theorem halt_meets (hflatten : flatten = true → trigger = .manual) (hw : Prepared w) :
    (halt o trigger flatten loss drawdown).Meets (Contract.traced Allowed) s
      (fun _ s' w' => s'.trigger.halted = true ∧ Engaged w' ∧ Recorded flatten w') w := by
  refine meets_engage_bind trivial ?_
  have hengaged : Engaged (w ++ [(⟨.engage trigger, ()⟩ : Event (desk K))]) := ⟨trigger, by simp⟩
  have hprepared : Prepared (w ++ [(⟨.engage trigger, ()⟩ : Event (desk K))]) := fun e he =>
    (List.mem_append.mp he).elim (hw e) fun he => List.mem_singleton.mp he ▸ trivial
  refine (Act.Meets.isolated (uses_act.grows (act_meets (o := o) hengaged hprepared))).bind ?_ ?_
  · rintro run s₂ w₂ - ⟨rfl, y, hy, hacted, hgrew⟩
    cases hy
    refine Act.meets_modify_bind.mpr (meets_clock_bind trivial fun t => ?_)
    have hmanual : run.2.flattened = true → trigger = .manual := fun h => hflatten (hacted.flattened.mp h).1
    have hevent : haltEvent o trigger loss drawdown t run.2 = .ok
        ⟨o.runId, t, trigger, loss, drawdown, run.2.cancelled, run.2.flattened, hmanual⟩ := dif_pos hmanual
    have hunrecorded := hgrew.forall_not (fun e he hrec => (not_of_records hrec).1 (hprepared e he)) fun c hrec =>
      not_not.mpr hrec
    have hengaged' := (hengaged.grew hgrew).snoc (⟨.clock, t⟩ : Event (desk K))
    have hrecorded (reply : Except Failure Bool) : Recorded flatten (w₂ ++ [(⟨.clock, t⟩ : Event (desk K))] ++
        [(⟨.request (.recordHalt ⟨o.runId, t, trigger, loss, drawdown, run.2.cancelled, run.2.flattened, hmanual⟩), reply⟩ :
          Event (desk K))]) := by
      refine ⟨_, _, reply, rfl, fun e he hrec => ?_, hacted.clock t⟩
      rcases List.mem_append.mp he with he | he
      · exact hunrecorded e he hrec
      · rw [List.mem_singleton.mp he] at hrec
        exact hrec
    rw [hevent]
    refine Act.meets_pure_bind.mpr (meets_request_bind trivial (fun v => ?_) fun f => ?_)
    · cases run.1 with
      | ok u => exact Contract.stays_traced.mpr ⟨KillSwitch.halted_halt s.trigger trigger, hengaged'.snoc _, hrecorded (.ok v)⟩
      | error e =>
        exact Contract.stays_traced.mpr ⟨KillSwitch.halted_halt s.trigger trigger, hengaged'.snoc _, hrecorded (.ok v)⟩
    · exact ⟨KillSwitch.halted_halt s.trigger trigger, hengaged'.snoc _, hrecorded (.error f)⟩
  · rintro e s₂ w₂ - ⟨-, y, hy, -⟩
    cases hy

end Halting

/-! ### The operations -/

section Operations
variable {o : Options} {s : Switch} {w : Trace K}

/-- A halt: the manual command, or the automatic triggers when one fires. -/
inductive Action (K : Type) where
  | manual (flatten : Bool)
  | automatic (limits : Limits K) (lastSuccess : FeedName → Option AwareDatetime)

def Action.steps (o : Options) : Action K → Steps K Switch Unit
  | .manual flatten => manualHalt o flatten
  | .automatic limits lastSuccess => check o limits lastSuccess

/-- Whether a flatten is asked for. -/
def Action.flatten : Action K → Bool
  | .manual flatten => flatten
  | .automatic _ _ => false

def Looks : (desk K).Call → Prop
  | .request .accountEquity | .request .equityHistory | .clock => True
  | _ => False

/-- Nothing but looks so far. -/
def Looked (w : Trace K) : Prop := ∀ e ∈ w, Looks e.call

theorem Looked.snoc {e : Event (desk K)} (h : Looked w) (he : Looks e.call) : Looked (w ++ [e]) := fun e' he' =>
  (List.mem_append.mp he').elim (h e') fun he' => List.mem_singleton.mp he' ▸ he

theorem Looked.prepared (h : Looked w) : Prepared w := by
  intro e he
  have hlooks := h e he
  unfold Looks at hlooks
  unfold Prepares
  split at hlooks
  all_goals simp_all

theorem Looked.not_engaged (h : Looked w) : ¬Engaged w := fun ⟨_, hmem⟩ => h _ hmem

/-- The operation ended: with a halt, or with the switch as it was and nothing but looks. -/
def Ended (flatten : Bool) (s s' : Switch) (w : Trace K) : Prop :=
  s'.trigger.halted = true ∧ Engaged w ∧ Recorded flatten w ∨ s' = s ∧ Looked w

theorem drawdown_meets (current : K) (required : Bool) (hw : Looked w) :
    (drawdown current required).Meets (Contract.traced Allowed) s (fun _ s' w' => s' = s ∧ Looked w') w := by
  refine meets_request_bind trivial (fun history => ?_) fun f => ⟨rfl, hw.snoc trivial⟩
  have hlooked : Looked (w ++ [returned .equityHistory history]) := hw.snoc trivial
  split
  · exact Contract.stays_traced.mpr ⟨rfl, hlooked⟩
  · split
    · exact Contract.stays_traced.mpr ⟨rfl, hlooked⟩
    · exact Contract.stays_traced.mpr ⟨rfl, hlooked⟩

theorem safeDrawdown_meets (hw : Looked w) : (safeDrawdown : Steps K Switch (Option K)).Meets (Contract.traced Allowed) s
    (fun x s' w' => (∃ figure, x = .ok figure) ∧ s' = s ∧ Looked w') w := by
  refine Act.Meets.tryCatch (Q := fun _ s' w' => s' = s ∧ Looked w') ?_ ?_ ?_
  · exact meets_request_bind trivial (fun equity => drawdown_meets equity.1 false (hw.snoc trivial)) fun f =>
      ⟨rfl, hw.snoc trivial⟩
  · exact fun figure s' w' _ h => ⟨⟨figure, rfl⟩, h⟩
  · exact fun e s' w' _ h => Contract.stays_traced.mpr ⟨⟨none, rfl⟩, h⟩

theorem manualHalt_meets (flatten : Bool) (hw : Looked w) : (manualHalt o flatten).Meets (Contract.traced Allowed) s
    (fun _ s' w' => Ended flatten s s' w' ∧ ((flatten && s.flattened) = false → Engaged w')) w := by
  refine Act.meets_get_bind.mpr ?_
  split
  · next hdone => exact Contract.stays_traced.mpr ⟨Or.inr ⟨rfl, hw⟩, by simp [hdone]⟩
  · refine (safeDrawdown_meets hw).bind ?_ ?_
    · rintro figure s₁ w₁ - ⟨-, rfl, hlooked⟩
      exact (halt_meets (fun _ => rfl) hlooked.prepared).mono fun _ _ _ _ h => ⟨Or.inl h, fun _ => h.2.1⟩
    · rintro e s₁ w₁ - ⟨⟨figure, hfigure⟩, -⟩
      cases hfigure

theorem check_meets (limits : Limits K) (lastSuccess : FeedName → Option AwareDatetime) (hw : Looked w) :
    (check o limits lastSuccess).Meets (Contract.traced Allowed) s (fun _ s' w' => Ended false s s' w') w := by
  refine Act.meets_get_bind.mpr ?_
  split
  · exact Contract.stays_traced.mpr (Or.inr ⟨rfl, hw⟩)
  · refine meets_request_bind trivial (fun equity => ?_) fun f => Or.inr ⟨rfl, hw.snoc trivial⟩
    refine meets_clock_bind trivial fun t => ?_
    have hlooked := (hw.snoc (e := returned .accountEquity equity) trivial).snoc (e := ⟨.clock, t⟩) trivial
    cases KillSwitch.evaluate equity.1 equity.2 limits.dailyLoss lastSuccess limits.slaHours t with
    | error e => exact Contract.stays_traced.mpr (Or.inr ⟨rfl, hlooked⟩)
    | ok fired =>
      cases fired with
      | none =>
        refine (drawdown_meets equity.1 true hlooked).bind ?_ fun _ _ _ _ h => Or.inr h
        exact fun _ s' w' _ h => Contract.stays_traced.mpr (Or.inr h)
      | some trigger =>
        refine (drawdown_meets equity.1 false hlooked).bind ?_ fun _ _ _ _ h => Or.inr h
        rintro figure s₁ w₁ - ⟨rfl, hlooked₁⟩
        cases KillSwitch.dailyLoss equity.1 equity.2 with
        | error e => exact Contract.stays_traced.mpr (Or.inr ⟨rfl, hlooked₁⟩)
        | ok loss => exact (halt_meets (fun h => absurd h Bool.false_ne_true) hlooked₁.prepared).mono fun _ _ _ _ h => Or.inl h

theorem steps_meets (a : Action K) (hw : Looked w) : (a.steps o).Meets (Contract.traced Allowed) s
    (fun _ s' w' => Ended a.flatten s s' w') w := by
  cases a with
  | manual flatten => exact (manualHalt_meets flatten hw).mono fun _ _ _ _ h => h.1
  | automatic limits lastSuccess => exact check_meets limits lastSuccess hw

end Operations

/-! ### Flattening comes last -/

section Flattening
variable {o : Options} {a : Action K} {s s' : Switch} {w evs : Trace K} {x : Except ExecError Unit}
  {q : Program (desk K) (Except ExecError Unit × Switch)}

theorem looked_nil : Looked ([] : Trace K) := fun _ h => absurd h List.not_mem_nil

theorem ended_of_runs (hruns : ((a.steps o).start s).Runs evs (.done (x, s'))) : Ended a.flatten s s' evs :=
  (steps_meets a looked_nil).of_runs_done hruns

section Handed
variable {event : KillSwitchEvent K} {reply : Except Failure Bool}

/-- The trace with the event handed to the recorder. -/
abbrev handed (w : Trace K) (event : KillSwitchEvent K) (reply : Except Failure Bool) : Trace K :=
  w ++ [⟨.request (.recordHalt event), reply⟩]

theorem handed_grew : Grew Records w (handed w event reply) := Grew.refl.snoc trivial

theorem returned_handed {r : Request K} {v : r.Value} (hr : ¬Records (.request r : (desk K).Call)) :
    returned r v ∈ handed w event reply ↔ returned r v ∈ w := handed_grew.mem_iff (returned r v) hr

theorem flattened_handed : Flattened (handed w event reply) ↔ Flattened w := by
  simp only [Flattened]
  refine exists_congr fun positions => and_congr (returned_handed id) ?_
  exact forall_congr' fun p => imp_congr_right fun _ => imp_congr_right fun _ => returned_handed id

theorem unconfirmed_handed : unconfirmed (handed w event reply) = unconfirmed w := unconfirmed_snoc _

theorem accepted_handed {id : Label} : Accepted id (handed w event reply) ↔ Accepted id w := returned_handed fun h => h

theorem unclosed_handed (h : ∀ e ∈ w, ¬Closes e.call) : ∀ e ∈ handed w event reply, ¬Closes e.call :=
  handed_grew.forall_not h fun c hc hrec => by
    unfold Records at hrec
    split at hrec
    · exact hc
    · cases hrec

end Handed

/-- Whatever the broker answers, a position is closed only after every order listed so far was read back terminal and a
    later listing was empty, and nothing is cancelled or closed before the switch is engaged. A halt that ends with an
    order unconfirmed has closed nothing. It has handed one event to the recorder, which says flattened exactly when that
    was asked for and every position that is not zero was closed. -/
theorem flatten_only_after_cancels (o : Options) (a : Action K) (s : Switch) (evs : Trace K)
    (q : Program (desk K) (Except ExecError Unit × Switch)) (hruns : ((a.steps o).start s).Runs evs q) :
    (∀ before symbol reply after, evs = before ++ ⟨.request (.closePosition symbol), reply⟩ :: after →
      Engaged before ∧ Settled before) ∧
    (∀ before id reply after, evs = before ++ ⟨.request (.cancelOrder id), reply⟩ :: after → Engaged before) ∧
    ∀ x s', q = .done (x, s') →
      (unconfirmed evs ≠ [] → ∀ e ∈ evs, ¬Closes e.call) ∧
      (s'.trigger.halted = true ↔ s.trigger.halted = true ∨ Engaged evs) ∧
      (∀ flatten, a = .manual flatten → (flatten && s.flattened) = false → Engaged evs) ∧
      (¬Engaged evs → ∀ e ∈ evs, ¬Records e.call) ∧
      (Engaged evs → ∃ before event reply, evs = before ++ [⟨.request (.recordHalt event), reply⟩] ∧
        (∀ e ∈ before, ¬Records e.call) ∧ (event.flattened = true ↔ a.flatten = true ∧ Flattened evs)) := by
  refine ⟨fun before symbol reply after hevs => ?_, fun before id reply after hevs => ?_, ?_⟩
  · exact (steps_meets a looked_nil).allowed_of_runs (hevs ▸ hruns)
  · exact (steps_meets a looked_nil).allowed_of_runs (hevs ▸ hruns)
  · rintro x s' rfl
    have hmanual : ∀ flatten, a = .manual flatten → (flatten && s.flattened) = false → Engaged evs := by
      rintro flatten rfl
      exact ((manualHalt_meets flatten looked_nil).of_runs_done hruns).2
    rcases ended_of_runs hruns with ⟨hhalted, hengaged, before, event, reply, rfl, hunrecorded, hacted⟩ | ⟨rfl, hlooked⟩
    · refine ⟨fun hunc => ?_, ?_, hmanual, fun h => absurd hengaged h, fun _ => ?_⟩
      · rw [unconfirmed_handed] at hunc
        exact unclosed_handed (hacted.unclosed hunc)
      · exact ⟨fun _ => Or.inr hengaged, fun _ => hhalted⟩
      · exact ⟨before, event, reply, rfl, hunrecorded, hacted.flattened.trans (and_congr_right' flattened_handed.symm)⟩
    · refine ⟨fun _ e he hcloses => ?_, ?_, hmanual, fun _ e he hrec => ?_, fun h => absurd h hlooked.not_engaged⟩
      · exact (not_of_closes hcloses).2.1 (hlooked.prepared e he)
      · exact ⟨Or.inl, fun h => h.elim (fun h => h) fun h => absurd h hlooked.not_engaged⟩
      · exact (not_of_records hrec).1 (hlooked.prepared e he)

/-- One order of a broker, with the status it is in. -/
def sampleOrder (id : Label) (status : BrokerOrderStatus) : BrokerOrder ℚ where
  brokerOrderId := id
  clientOrderId := ⟨"x", by decide⟩
  symbol := ⟨"AAA", Samples.label_aaa⟩
  side := .buy
  kind := .limit
  qty := ⟨5, by decide⟩
  filledQty := ⟨0, by decide⟩
  limitPrice := none
  filledAvgPrice := none
  status := status
  submittedAt := ⟨0, 0⟩
  filledAt := none

/-- A broker with some open orders, which the first listing gives, and one position. A cancel is accepted of the first
    order, and of the others only when `cancels`. -/
def brokerAnswer (orders : List Label) (cancels : Bool) : (c : DeskCall ℚ) → Nat → c.Reply × Nat
  | .request .openOrders, n => (.ok (if n = 0 then orders.map fun id => sampleOrder id .open else []), n + 1)
  | .request (.cancelOrder id), n => (if cancels || orders.head? = some id then .ok () else .error .broker, n)
  | .request (.getOrder id), n => (.ok (sampleOrder id .canceled), n)
  | .request .positions, n => (.ok ⟨[("AAA", 10)], by decide⟩, n)
  | .request (.closePosition _), n => (.ok (), n)
  | .request (.recordHalt _), n => (.ok true, n)
  | .request _, n => (.error .other, n)
  | .clock, n => (⟨0, 0⟩, n)
  | .sleep _, n => ((), n)
  | .engage _, n => ((), n)

def sampleOptions : Options := ⟨⟨66⟩, 1000000, 2⟩

def firstId : Label := ⟨"B1", Samples.label_b1⟩

def secondId : Label := ⟨"B2", Samples.label_b2⟩

/-- The manual halt of that broker. -/
def sampleHalt (orders : List Label) (cancels : Bool) : Trace ℚ :=
  ((manualHalt sampleOptions true).start ⟨none, false⟩).trace (brokerAnswer orders cancels) 0

/-- The halt closes the position and says so. -/
theorem flatten_only_after_cancels_sample :
    (∃ e ∈ sampleHalt [firstId] true, Closes e.call) ∧ ∃ before event reply,
      sampleHalt [firstId] true = before ++ [⟨.request (.recordHalt event), reply⟩] ∧
      (event.flattened = true ↔ Flattened (sampleHalt [firstId] true)) := by
  have hclose : (sampleHalt [firstId] true)[7]? = some (returned (.closePosition "AAA") ()) := rfl
  obtain ⟨-, -, hdone⟩ := flatten_only_after_cancels sampleOptions (.manual true) ⟨none, false⟩ _ _
    (Program.runs_trace (brokerAnswer [firstId] true) _ 0)
  obtain ⟨-, -, hengaged, -, hevent⟩ := hdone _ _ rfl
  obtain ⟨before, event, reply, hevs, -, hflat⟩ := hevent (hengaged true rfl rfl)
  exact ⟨⟨_, List.mem_of_getElem? hclose, trivial⟩, before, event, reply, hevs, hflat.trans (and_iff_right rfl)⟩

end Flattening

/-! ### What the event lists -/

section Listed
variable {evs : Trace K} {x : Except ExecError Unit} {s' : Switch} {event : KillSwitchEvent K}
  {reply : Except Failure Bool}

/-- The event of a halt lists every order of which the broker accepted a cancel request, exactly when the broker answered
    a listing with no order, or accepted none. -/
theorem cancelled_listed_iff (o : Options) (a : Action K) (s : Switch)
    (hruns : ((a.steps o).start s).Runs evs (.done (x, s')))
    (hevent : (⟨.request (.recordHalt event), reply⟩ : Event (desk K)) ∈ evs) :
    (∀ id, Accepted id evs → id ∈ event.cancelledOrderIds) ↔
      returned .openOrders [] ∈ evs ∨ ∀ id, ¬Accepted id evs := by
  rcases ended_of_runs hruns with ⟨-, -, before, event', reply', rfl, hunrecorded, hacted⟩ | ⟨-, hlooked⟩
  · have heq : event = event' := by
      rcases List.mem_append.mp hevent with h | h
      · exact absurd trivial (hunrecorded _ h)
      · have hcall := congrArg Event.call (List.mem_singleton.mp h)
        simpa using hcall
    subst heq
    simp only [accepted_handed, returned_handed (K := K) (r := .openOrders) id]
    constructor
    · intro hall
      refine or_iff_not_imp_left.mpr fun hlisted id hid => ?_
      have hmem := hall id hid
      rw [show event.cancelledOrderIds = [] from hacted.incomplete hlisted] at hmem
      exact absurd hmem List.not_mem_nil
    · rintro (hlisted | hnone) id hid
      · exact hacted.complete hlisted id hid
      · exact absurd hid (hnone id)
  · exact absurd (hlooked _ hevent) id

/-- A halt that came to its end lists the order that it cancelled. -/
theorem cancelled_listed_iff_sample : Accepted firstId (sampleHalt [firstId] true) ∧ firstId ∈ [firstId] := by
  have hrecord : (sampleHalt [firstId] true)[9]? =
      some (returned (.recordHalt ⟨⟨66⟩, ⟨0, 0⟩, .manual, none, none, [firstId], true, fun _ => rfl⟩) true) := rfl
  have hlisting : (sampleHalt [firstId] true)[5]? = some (returned .openOrders []) := rfl
  have hcancel : (sampleHalt [firstId] true)[3]? = some (returned (.cancelOrder firstId) ()) := rfl
  have haccepted : Accepted firstId (sampleHalt [firstId] true) := List.mem_of_getElem? hcancel
  refine ⟨haccepted, ?_⟩
  have hlisted : ∀ id, Accepted id (sampleHalt [firstId] true) → id ∈ [firstId] := by
    refine (cancelled_listed_iff sampleOptions (.manual true) ⟨none, false⟩
      (Program.runs_trace (brokerAnswer [firstId] true) _ 0) (List.mem_of_getElem? hrecord)).mpr ?_
    exact Or.inl (List.mem_of_getElem? hlisting)
  exact hlisted firstId haccepted

/-- The broker accepts the cancel of the first order and fails on the second: the event lists neither. -/
theorem cancel_unlisted : ¬∀ (o : Options) (a : Action ℚ) (s : Switch) (evs : Trace ℚ) (x : Except ExecError Unit)
    (s' : Switch) (event : KillSwitchEvent ℚ) (reply : Except Failure Bool),
    ((a.steps o).start s).Runs evs (.done (x, s')) → ⟨.request (.recordHalt event), reply⟩ ∈ evs →
    ∀ id, Accepted id evs → id ∈ event.cancelledOrderIds := by
  intro h
  have hcancel : (sampleHalt [firstId, secondId] false)[3]? = some (returned (.cancelOrder firstId) ()) := rfl
  have hrecord : (sampleHalt [firstId, secondId] false)[6]? =
      some (returned (.recordHalt ⟨⟨66⟩, ⟨0, 0⟩, .manual, none, none, [], false, nofun⟩) true) := rfl
  have hmem := h sampleOptions (.manual true) ⟨none, false⟩ _ _ _ _ _
    (Program.runs_trace (brokerAnswer [firstId, secondId] false) _ 0) (List.mem_of_getElem? hrecord) firstId
    (List.mem_of_getElem? hcancel)
  exact absurd hmem List.not_mem_nil

end Listed

end Halt
end AsymmetricCommittee
