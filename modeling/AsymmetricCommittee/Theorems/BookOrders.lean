import AsymmetricCommittee.Execution.Brokerage
import AsymmetricCommittee.Lib.TextLines
import AsymmetricCommittee.Theorems.BookPhases

/-! A book with the broker: each name's orders are the broker's, whatever fills meanwhile, and a market order is only sent for
    what a terminal limit order has left. -/

namespace AsymmetricCommittee
namespace Executor
open Brokerage
/-! ### Client ids -/

section Ids
variable {K : Type}

theorem toString_securityId (s : SecurityId) : toString s.val = toString s.val.toNat := by
  obtain ⟨n, hn⟩ := s
  obtain ⟨m, rfl⟩ := Int.eq_ofNat_of_zero_le (by omega : 0 ≤ n)
  rfl

theorem clientOrderId_toList (runId : UUID) (s : SecurityId) (leg : String) : (clientOrderId runId s leg).toList =
    (runId.str ++ "-" ++ toString s.val.toNat ++ "-").toList ++ leg.toList := by
  rw [clientOrderId, String.toList_append, toString_securityId]

/-- A client id tells its leg, and of the same run its security. -/
theorem clientOrderId_inj {runId runId' : UUID} {s s' : SecurityId} {leg leg' : String}
    (hlength : leg.toList.length = leg'.toList.length) (h : clientOrderId runId s leg = clientOrderId runId' s' leg') :
    leg = leg' ∧ (runId = runId' → s = s') := by
  have hlist := congrArg String.toList h
  rw [clientOrderId_toList, clientOrderId_toList] at hlist
  obtain ⟨hfront, hleg⟩ := List.append_inj' hlist hlength
  refine ⟨String.toList_inj.mp hleg, ?_⟩
  rintro rfl
  simp only [String.toList_append] at hfront
  have hnames := PyText.toString_nat_injective (List.append_cancel_left (List.append_cancel_right hfront))
  have hpos := s.property
  have hpos' := s'.property
  exact Subtype.ext (by omega)

theorem limId_ne_mktId (t t' : ExecutionTarget K) : t.limId ≠ t'.mktId := by
  intro h
  have hlegs : "lim" = "mkt" := (clientOrderId_inj (by decide) h).1
  exact absurd hlegs (by decide)

/-- The targets of a run, each of a security of its own. -/
structure OneRun (runId : UUID) (targets : List (ExecutionTarget K)) : Prop where
  run : ∀ t ∈ targets, t.runId = runId
  names : (targets.map (·.securityId)).Nodup

theorem OneRun.eq_of_clientId {runId : UUID} {targets : List (ExecutionTarget K)} (h : OneRun runId targets)
    {t t' : ExecutionTarget K} (ht : t ∈ targets) (ht' : t' ∈ targets) (heq : t.limId = t'.limId ∨ t.mktId = t'.mktId) :
    t = t' := by
  have hruns := (h.run t ht).trans (h.run t' ht').symm
  refine List.inj_on_of_nodup_map h.names ht ht' ?_
  rcases heq with heq | heq
  · exact (clientOrderId_inj rfl heq).2 hruns
  · exact (clientOrderId_inj rfl heq).2 hruns

end Ids

variable {K : Type} [Field K] [LinearOrder K] {W : Type} {C : Contract (desk K) W} {w w' : W}
  {orders told : W → List (BrokerOrder K)} {targets : List (ExecutionTarget K)}

/-! ### The contract -/

section Settles
variable [FloorRing K]

/-- The order has ended as the target's limit order, and left this quantity. -/
structure Settles (t : ExecutionTarget K) (lim : BrokerOrder K) (qty : K) : Prop where
  id : lim.clientOrderId.val = t.limId
  terminal : lim.status.terminal = true
  accepted : lim.status ≠ .rejected
  qty : qty = round6 (t.qty - lim.filledQty.val)

/-- The broker's orders of a book: limit orders for the quantities of the targets, and market orders for what they left. -/
structure Books (targets : List (ExecutionTarget K)) (orders : List (BrokerOrder K)) : Prop where
  kept : Kept orders
  limit : ∀ t ∈ targets, ∀ o ∈ orders, o.clientOrderId.val = t.limId → o.qty.val = t.qty
  market : ∀ t ∈ targets, ∀ o ∈ orders, o.clientOrderId.val = t.mktId → ∃ lim ∈ orders, Settles t lim o.qty.val

/-- A submission that a book may make: a market order is only sent once the limit order was reported terminal. -/
structure Permitted (targets : List (ExecutionTarget K)) (orders told : List (BrokerOrder K)) (r : OrderRequest K) : Prop where
  own : ∃ t ∈ targets, (r.clientOrderId = t.limId ∨ r.clientOrderId = t.mktId) ∧ r.side = t.side
  limit : ∀ t ∈ targets, r.clientOrderId = t.limId → r.qty = t.qty
  market : ∀ t ∈ targets, r.clientOrderId = t.mktId → ∃ lim ∈ orders, lim ∈ told ∧ Settles t lim r.qty

variable (orders told targets) in
/-- The contract of a book with the broker. `told` is what the broker has reported. -/
structure Brokered (C : Contract (desk K) W) : Prop where
  books : ∀ w, C.inv w → Books targets (orders w)
  rely : ∀ w w', C.rely w w' → C.inv w' → Forward (orders w) (orders w')
  heard : ∀ w w', C.rely w w' → told w ⊆ told w'
  answers : ∀ c w r w', C.answers c w r w' → Answers (orders w) c r (orders w')
  reports : ∀ c w r w', C.answers c w r w' → told w ⊆ told w' ∧ reported c r ⊆ told w'
  submit : ∀ r w, C.inv w → Permitted targets (orders w) (told w) r → C.allowed (.request (.submit r)) w
  others : ∀ c w, BookCall c → (∀ r, c ≠ .request (.submit r)) → C.inv w → C.allowed c w

end Settles

/-! ### One name -/

/-- An order of the client id that the broker has reported, and still keeps. -/
structure Known (orders told : List (BrokerOrder K)) (id : String) (o : BrokerOrder K) : Prop where
  id : o.clientOrderId.val = id
  told : o ∈ told
  now : ∃ o' ∈ orders, Later o o'

theorem Known.terminal {orders told : List (BrokerOrder K)} {id : String} {o : BrokerOrder K} (h : Known orders told id o)
    (ht : o.status.terminal = true) : o ∈ orders := by
  obtain ⟨o', ho', hlater⟩ := h.now
  rwa [hlater.terminal ht] at ho'

theorem Known.mono {orders told orders' told' : List (BrokerOrder K)} {id : String} {o : BrokerOrder K}
    (h : Known orders told id o) (hforward : Forward orders orders') (hsub : told ⊆ told') : Known orders' told' id o := by
  obtain ⟨o', ho', hlater⟩ := h.now
  obtain ⟨o'', ho'', hlater'⟩ := hforward o' ho'
  exact ⟨h.id, hsub h.told, o'', ho'', hlater.trans hlater'⟩

section Names
variable [FloorRing K] {t : ExecutionTarget K} {leg : Leg K} {n : Nat}

variable (orders told targets) in
/-- What a name has after a phase. -/
structure Driven (n : Nat) (t : ExecutionTarget K) (leg : Leg K) (w : W) : Prop where
  mem : t ∈ targets
  target : leg.target = t
  lim : ∀ o ∈ leg.lim, Known (orders w) (told w) t.limId o
  mkt : ∀ o ∈ leg.mkt, Known (orders w) (told w) t.mktId o
  fresh : n ≤ 3 → leg.residualPending = false ∧ leg.mkt = none
  pending : leg.residualPending = true → 0 < leg.residual ∧ ∃ lim ∈ leg.lim, Settles t lim leg.residual
  decided : 4 ≤ n → leg.error = none → ∀ lim ∈ leg.lim, lim.status.terminal = true ∧
    ∀ qty, Settles t lim qty → 0 < qty → leg.residualPending = true

theorem Driven.mono (h : Driven orders told targets n t leg w) (hforward : Forward (orders w) (orders w')) (hsub : told w ⊆ told w') :
    Driven orders told targets n t leg w' :=
  { h with
    lim := fun o ho => (h.lim o ho).mono hforward hsub
    mkt := fun o ho => (h.mkt o ho).mono hforward hsub }

theorem Driven.settled (h : Driven orders told targets n t leg w) (x : Except ExecError Unit) :
    Driven orders told targets n t (leg.settled x) w := by
  cases x with
  | ok u => exact h
  | error e => exact { h with decided := fun _ he => absurd he (Option.some_ne_none e) }

/-- Evidence does not matter. -/
theorem Driven.evidence (h : Driven orders told targets n t leg w) (fresh : Option (K × ReferenceSource)) (price : Option K)
    (records : List (ExecutionRecord K)) :
    Driven orders told targets n t { leg with fresh := fresh, price := price, records := records } w := { h with }

/-- Up to the closing of the limit orders nothing is decided. -/
theorem Driven.early (h : Driven orders told targets n t leg w) {m : Nat} (hn : n ≤ 3) (hm : m ≤ 3) : Driven orders told targets m t leg w :=
  { h with fresh := fun _ => h.fresh hn, decided := fun hm' => by omega }

theorem Driven.late (h : Driven orders told targets n t leg w) {m : Nat} (hn : 4 ≤ n) (hm : 4 ≤ m) : Driven orders told targets m t leg w :=
  { h with fresh := fun hm' => by omega, decided := fun _ => h.decided hn }

/-- A name that failed has nothing to decide. -/
theorem Driven.failed (h : Driven orders told targets n t leg w) {m : Nat} (hm : 4 ≤ m) (hfailed : leg.error ≠ none) :
    Driven orders told targets m t leg w :=
  { h with fresh := fun hm' => by omega, decided := fun _ he => absurd he hfailed }

theorem Driven.fails (h : Driven orders told targets n t leg w) (e : ExecError) {m : Nat} (hm : 4 ≤ m) :
    Driven orders told targets m t (leg.settled (.error e)) w := (h.settled (.error e)).failed hm (Option.some_ne_none e)

theorem Driven.block (h : Driven orders told targets n t leg w) : Driven orders told targets n t { leg with blocked := true } w := { h with }

/-- Before the closing a limit order may be read again. -/
theorem Driven.limit (h : Driven orders told targets n t leg w) (hn : n ≤ 3) {o : BrokerOrder K}
    (ho : Known (orders w) (told w) t.limId o) : Driven orders told targets n t { leg with lim := some o } w where
  mem := h.mem
  target := h.target
  lim := by
    rintro o' ⟨⟩
    exact ho
  mkt := h.mkt
  fresh := h.fresh
  pending hp := by
    change leg.residualPending = true at hp
    simp [(h.fresh hn).1] at hp
  decided hn' := by omega

theorem Driven.market (h : Driven orders told targets n t leg w) (hn : 4 ≤ n) {o : BrokerOrder K}
    (ho : Known (orders w) (told w) t.mktId o) : Driven orders told targets n t { leg with mkt := some o } w where
  mem := h.mem
  target := h.target
  lim := h.lim
  mkt := by
    rintro o' ⟨⟩
    exact ho
  fresh hn' := by omega
  pending := h.pending
  decided := h.decided

variable (hB : Brokered orders told targets C)
include hB

theorem Brokered.known (id : String) (o : BrokerOrder K) : C.Kept fun w => Known (orders w) (told w) id o where
  stable w w' hr hi h := h.mono (hB.rely w w' hr hi) (hB.heard w w' hr)
  call c w r w' _ _ hans _ h := h.mono (hB.answers c w r w' hans).forward (hB.reports c w r w' hans).1

theorem Brokered.driven (n : Nat) (t : ExecutionTarget K) (leg : Leg K) : C.Kept (Driven orders told targets n t leg) where
  stable w w' hr hi h := h.mono (hB.rely w w' hr hi) (hB.heard w w' hr)
  call c w r w' _ _ hans _ h := h.mono (hB.answers c w r w' hans).forward (hB.reports c w r w' hans).1

theorem Brokered.evidence (c : (desk K).Call) (w : W) (hc : EvidenceCall c) (hi : C.inv w) : C.allowed c w := by
  refine hB.others c w ?_ ?_ hi
  · unfold EvidenceCall at hc
    split at hc
    all_goals trivial
  · rintro r rfl
    exact hc

/-- What the broker reports under a client id is known. -/
theorem Brokered.reports_known {c : DeskCall K} {r : c.Reply} {o : BrokerOrder K} (hans : C.answers c w r w')
    (ho : o ∈ reported c r) : Known (orders w') (told w') o.clientOrderId.val o :=
  ⟨rfl, (hB.reports c w r w' hans).2 ho, o, (hB.answers c w r w' hans).mem_reported ho, .refl o⟩

/-- An order that is read again has the client id that it had. -/
theorem Brokered.read_known {id : String} {o o' : BrokerOrder K} (hi : C.inv w') (ho : Known (orders w) (told w) id o)
    (hans : C.answers (.request (.getOrder o.brokerOrderId)) w (.ok o') w') : Known (orders w') (told w') id o' := by
  obtain ⟨hsame, hmem, hid⟩ := hB.answers _ w _ w' hans
  have hreported := hB.reports_known hans (o := o') (List.mem_singleton_self o')
  obtain ⟨now, hnow, hlater⟩ := ho.now
  have heq : now = o' := (hB.books w' hi).kept.eq_of_brokerOrderId (hsame ▸ hnow) (hsame ▸ hmem)
    (hlater.brokerOrderId.trans hid.symm)
  refine { hreported with id := ?_ }
  rw [← heq, hlater.clientOrderId]
  exact ho.id

theorem resolveReference_driven (hn : n ≤ 3) {m : Nat} (hm : m ≤ 3) (h : Driven orders told targets n t leg w) :
    (Leg.resolveReference : Steps K (Leg K) Unit).Meets C leg
      (fun x leg' w' => leg'.error = leg.error ∧ Driven orders told targets m t (leg'.settled x) w') w := by
  refine ((resolveReference_meets hB.evidence).frame (hB.driven n t leg) h).mono ?_
  rintro x leg' w' - ⟨⟨fresh, price, rfl⟩, h'⟩
  exact ⟨rfl, ((h'.early hn hm).evidence fresh price leg.records).settled x⟩

/-- Noting an order leaves the name as it was, up to evidence. -/
theorem note_driven (o : BrokerOrder K) (h : Driven orders told targets n t leg w) :
    (Leg.note o).Meets C leg (fun _ leg' w' => (∃ fresh records, leg' = { leg with fresh := fresh, records := records }) ∧
      Driven orders told targets n t leg' w') w := by
  refine ((note_meets hB.evidence o).frame (hB.driven n t leg) h).mono ?_
  rintro x leg' w' - ⟨⟨fresh, records, rfl⟩, h'⟩
  exact ⟨⟨fresh, records, rfl⟩, h'.evidence fresh leg.price records⟩

/-- What is placed, or found after a failure, is the broker's order of the client id. -/
theorem submitOnce_driven (sent : OrderRequest K) (h : Driven orders told targets n t leg w)
    (hsent : ∀ w, C.inv w → Driven orders told targets n t leg w → Permitted targets (orders w) (told w) sent) :
    (Leg.submitOnce sent).Meets C leg (fun x leg' w' => (leg' = leg ∧ ∀ placed, x = .ok placed →
      Known (orders w') (told w') sent.clientOrderId placed) ∧ Driven orders told targets n t leg w') w := by
  refine Act.Meets.frame ?_ (hB.driven n t leg) h
  refine Act.meets_ask_bind.mpr fun w₁ hr hi => ?_
  have h₁ := (hB.driven n t leg).stable w w₁ hr hi h
  refine ⟨hB.submit sent w₁ hi (hsent w₁ hi h₁), fun reply w₂ hans hi₂ => ?_⟩
  cases reply with
  | ok placed =>
    have hknown : Known (orders w₂) (told w₂) sent.clientOrderId placed := by
      have hreported := hB.reports_known hans (o := placed) (List.mem_singleton_self placed)
      rwa [(hB.answers _ w₁ _ w₂ hans).1.clientOrderId] at hreported
    refine fun w₃ hr₃ hi₃ => ⟨rfl, ?_⟩
    rintro placed' ⟨⟩
    exact (hB.known _ placed).stable w₂ w₃ hr₃ hi₃ hknown
  | error f =>
    dsimp only
    split
    · refine Act.Meets.bind (Q := fun x leg' w' => leg' = leg ∧ ∀ o, x = .ok (some o) →
        Known (orders w') (told w') sent.clientOrderId o) ?_ ?_ ?_
      · refine meets_request_of fun w₃ hr₃ hi₃ => ⟨hB.others _ w₃ trivial (by simp) hi₃, fun reply w₄ hans₄ _ => ?_⟩
        refine fun w₅ hr₅ hi₅ => ⟨rfl, ?_⟩
        intro o ho
        cases reply with
        | error f => cases ho
        | ok found =>
          obtain rfl : found = some o := Except.ok.inj ho
          have hreported := hB.reports_known hans₄ (o := o) (List.mem_singleton_self o)
          rw [(hB.answers _ w₃ _ w₄ hans₄).2.2] at hreported
          exact (hB.known _ o).stable w₄ w₅ hr₅ hi₅ hreported
      · rintro found leg₁ w₃ - ⟨rfl, hfound⟩
        cases found with
        | none => exact fun _ _ _ => ⟨rfl, fun _ h => by cases h⟩
        | some o =>
          refine fun w₄ hr₄ hi₄ => ⟨rfl, ?_⟩
          rintro placed ⟨⟩
          exact (hB.known _ o).stable w₃ w₄ hr₄ hi₄ (hfound o rfl)
      · rintro e leg₁ w₃ - ⟨rfl, -⟩
        exact ⟨rfl, fun _ h => by cases h⟩
    · exact fun _ _ _ => ⟨rfl, fun _ h => by cases h⟩

theorem guardOverfill_driven (target : ExecutionTarget K) (filled : K) (h : Driven orders told targets n t leg w) :
    (Leg.guardOverfill target filled).Meets C leg
      (fun x leg' w' => leg' = leg ∧ Driven orders told targets n t (leg'.settled x) w') w := by
  unfold Leg.guardOverfill
  split
  · exact fun w' hr hi => ⟨rfl, ((hB.driven n t leg).stable w w' hr hi h).settled _⟩
  · exact fun w' hr hi => ⟨rfl, (hB.driven n t leg).stable w w' hr hi h⟩

theorem cancelOrder_driven (id : Label) (h : Driven orders told targets n t leg w) :
    (Leg.cancelOrder id).Meets C leg
      (fun x leg' w' => leg'.error = leg.error ∧ Driven orders told targets n t (leg'.settled x) w') w := by
  refine Act.meets_ask_bind.mpr fun w₁ hr hi => ⟨hB.others _ w₁ trivial (by simp) hi, fun reply w₂ hans hi₂ => ?_⟩
  have h₁ := (hB.driven n t leg).stable w w₁ hr hi h
  have h₂ := (hB.driven n t leg).call _ w₁ reply w₂ hi (hB.others _ w₁ trivial (by simp) hi) hans hi₂ h₁
  split
  · exact fun w₃ hr₃ hi₃ => ⟨rfl, (hB.driven n t leg).stable w₂ w₃ hr₃ hi₃ h₂⟩
  · exact fun w₃ hr₃ hi₃ => ⟨rfl, (hB.driven n t leg).stable w₂ w₃ hr₃ hi₃ h₂⟩
  · exact fun w₃ hr₃ hi₃ => ⟨rfl, ((hB.driven n t leg).stable w₂ w₃ hr₃ hi₃ h₂).settled _⟩

/-- A read of an order of the name. -/
theorem read_driven {id : String} {o : BrokerOrder K} (ho : Known (orders w) (told w) id o)
    (h : Driven orders told targets n t leg w) {σ : Type} {s : σ} :
    (request (.getOrder o.brokerOrderId) : Steps K σ (BrokerOrder K)).Meets C s
      (fun x s' w' => (s' = s ∧ ∀ o', x = .ok o' → Known (orders w') (told w') id o') ∧
        Driven orders told targets n t leg w') w := by
  refine Act.Meets.frame ?_ (hB.driven n t leg) h
  refine meets_request_of fun w₁ hr hi => ⟨hB.others _ w₁ trivial (by simp) hi, fun reply w₂ hans hi₂ w₃ hr₃ hi₃ => ?_⟩
  refine ⟨rfl, fun o' heq => ?_⟩
  cases reply with
  | error f => cases heq
  | ok o'' =>
    obtain rfl := Except.ok.inj heq
    have hread := hB.read_known hi₂ ((hB.known id o).stable w w₁ hr hi ho) hans
    exact (hB.known id _).stable w₂ w₃ hr₃ hi₃ hread

theorem cancelLimit_driven (h : Driven orders told targets 2 t leg w) :
    (Leg.cancelLimit : Steps K (Leg K) Unit).Meets C leg
      (fun x leg' w' => leg'.error = leg.error ∧ Driven orders told targets 3 t (leg'.settled x) w') w := by
  have h₃ : Driven orders told targets 3 t leg w := h.early (by omega) (by omega)
  have hdone : C.Stays (fun w' => leg.error = leg.error ∧ Driven orders told targets 3 t (leg.settled (.ok ())) w') w :=
    fun w' hr hi => ⟨rfl, (hB.driven 3 t leg).stable w w' hr hi h₃⟩
  refine Act.meets_get_bind.mpr ?_
  split
  · exact hdone
  · next lim hlim =>
    split
    · exact hdone
    · refine (read_driven hB (h.lim lim hlim) h₃).bind ?_ ?_
      · rintro o leg₁ w₁ - ⟨⟨rfl, ho⟩, h₁⟩
        refine Act.meets_modify_bind.mpr ?_
        have hread := h₁.limit (by omega) (ho o rfl)
        split
        · exact fun w' hr hi => ⟨rfl, (hB.driven 3 t _).stable w₁ w' hr hi hread⟩
        · exact cancelOrder_driven hB _ hread
      · rintro e leg₁ w₁ - ⟨⟨rfl, -⟩, h₁⟩
        exact ⟨rfl, h₁.settled (.error e)⟩

theorem closeLimit_driven (h : Driven orders told targets 3 t leg w) :
    (Leg.closeLimit : Steps K (Leg K) Unit).Meets C leg
      (fun x leg' w' => leg'.error = leg.error ∧ Driven orders told targets 4 t (leg'.settled x) w') w := by
  refine Act.meets_get_bind.mpr ?_
  split
  · next hnone =>
    refine fun w' hr hi => ⟨rfl, ?_⟩
    have h' := (hB.driven 3 t leg).stable w w' hr hi h
    exact { h' with fresh := fun hm => by omega, decided := fun _ _ lim hlim => by simp [Leg.settled, hnone] at hlim }
  · next lim hlim =>
    refine (note_driven hB lim h).bind ?_ ?_
    · rintro u leg₁ w₁ - ⟨⟨fresh, records, rfl⟩, h₁⟩
      split
      · next hterminal =>
        refine (guardOverfill_driven hB leg.target lim.filledQty.val h₁).bind ?_ ?_
        · rintro u leg₂ w₂ - ⟨rfl, h₂⟩
          split
          · next hrejected =>
            refine fun w' hr hi => ⟨rfl, ?_⟩
            have h' := (hB.driven 3 t _).stable w₂ w' hr hi h₂
            refine { h' with fresh := fun hm => by omega, decided := fun _ _ lim' hlim' => ?_ }
            obtain rfl : lim = lim' := Option.some.inj (hlim.symm.trans hlim')
            exact ⟨hterminal, fun qty hsettles => absurd hrejected hsettles.accepted⟩
          · next haccepted =>
            refine fun w' hr hi => ⟨rfl, ?_⟩
            have h' := (hB.driven 3 t _).stable w₂ w' hr hi h₂
            have hsettles : Settles t lim (round6 (t.qty - lim.filledQty.val)) :=
              ⟨(h.lim lim hlim).id, hterminal, haccepted, rfl⟩
            have hresidual : (Leg.setResidual lim { leg with fresh := fresh, records := records }).residual =
                round6 (t.qty - lim.filledQty.val) := by rw [← h.target]; rfl
            have hpending : (Leg.setResidual lim { leg with fresh := fresh, records := records }).residualPending =
                decide (0 < round6 (t.qty - lim.filledQty.val)) := by rw [← h.target]; rfl
            refine { h' with fresh := fun hm => by omega, pending := fun hp => ?_, decided := fun _ _ lim' hlim' => ?_ }
            · have hpos := of_decide_eq_true (hpending.symm.trans hp)
              exact ⟨hresidual ▸ hpos, lim, hlim, hresidual ▸ hsettles⟩
            · obtain rfl : lim = lim' := Option.some.inj (hlim.symm.trans hlim')
              refine ⟨hterminal, fun qty hqty hpos => ?_⟩
              rw [hqty.qty] at hpos
              exact hpending.trans (decide_eq_true hpos)
        · rintro e leg₂ w₂ - ⟨rfl, h₂⟩
          exact ⟨rfl, h₂.failed le_rfl (Option.some_ne_none e)⟩
      · exact fun w' hr hi => ⟨rfl, ((hB.driven 3 t _).stable w₁ w' hr hi h₁).fails _ le_rfl⟩
    · rintro e leg₁ w₁ - ⟨⟨fresh, records, rfl⟩, h₁⟩
      exact ⟨rfl, h₁.fails e le_rfl⟩

theorem closeMarket_driven (h : Driven orders told targets 5 t leg w) :
    (Leg.closeMarket : Steps K (Leg K) Unit).Meets C leg
      (fun x leg' w' => leg'.error = leg.error ∧ Driven orders told targets 6 t (leg'.settled x) w') w := by
  refine Act.meets_get_bind.mpr ?_
  split
  · next mkt lim _ _ =>
    refine (note_driven hB mkt (h.late (by omega) (by omega) : Driven orders told targets 6 t leg w)).bind ?_ ?_
    · rintro u leg₁ w₁ - ⟨⟨fresh, records, rfl⟩, h₁⟩
      refine (guardOverfill_driven hB leg.target (lim.filledQty.val + mkt.filledQty.val) h₁).mono ?_
      rintro x leg₂ w₂ - ⟨rfl, h₂⟩
      exact ⟨rfl, h₂⟩
    · rintro e leg₁ w₁ - ⟨⟨fresh, records, rfl⟩, h₁⟩
      exact ⟨rfl, h₁.settled (.error e)⟩
  · exact fun w' hr hi => ⟨rfl, ((hB.driven 5 t leg).stable w w' hr hi h).fails _ (by omega)⟩

/-- A re-read leaves the name as it was, up to the order that it waits for. -/
theorem awaitOne_driven (hn : n = 3 ∨ n = 5) {book : Book} (h : Driven orders told targets n t leg w)
    (hwaiting : leg.waiting = true) :
    (awaitOne leg).Meets C book
      (Act.post (fun leg' b w' => b = book ∧ leg'.error = leg.error ∧ Driven orders told targets n t leg' w')
        fun _ _ => True) w := by
  unfold awaitOne
  rw [hwaiting]
  split
  · next current _ hcurrent =>
    have hlive : leg.error = none ∧ current.status.terminal = false := by
      rw [Leg.waiting, Bool.and_eq_true, hcurrent] at hwaiting
      exact ⟨Option.isNone_iff_eq_none.mp hwaiting.1, by simpa using hwaiting.2⟩
    unfold Leg.current at hcurrent
    cases hmkt : leg.mkt with
    | some mkt =>
      obtain rfl : mkt = current := by simpa [hmkt] using hcurrent
      refine (read_driven hB (h.mkt mkt hmkt) h).bind ?_ fun _ _ _ _ _ => trivial
      rintro o b w₁ - ⟨⟨rfl, ho⟩, h₁⟩
      have hread := h₁.market (hn.elim (fun h₃ => by simp [(h.fresh (by omega)).2] at hmkt) fun h₅ => by omega) (ho o rfl)
      have hset : leg.setCurrent o = { leg with mkt := some o } := by simp [Leg.setCurrent, hmkt]
      rw [hset]
      exact fun w' hr hi => ⟨rfl, rfl, (hB.driven n t _).stable w₁ w' hr hi hread⟩
    | none =>
      have hlim : leg.lim = some current := by simpa [hmkt] using hcurrent
      have hearly : n ≤ 3 := by
        rcases hn with rfl | rfl
        · exact le_rfl
        · have hterminal := (h.decided (by omega) hlive.1 current hlim).1
          rw [hlive.2] at hterminal
          cases hterminal
      refine (read_driven hB (h.lim current hlim) h).bind ?_ fun _ _ _ _ _ => trivial
      rintro o b w₁ - ⟨⟨rfl, ho⟩, h₁⟩
      have hread := h₁.limit hearly (ho o rfl)
      have hset : leg.setCurrent o = { leg with lim := some o } := by simp [Leg.setCurrent, hmkt]
      rw [hset]
      exact fun w' hr hi => ⟨rfl, rfl, (hB.driven n t _).stable w₁ w' hr hi hread⟩
  · exact fun w' hr hi => ⟨rfl, rfl, (hB.driven n t leg).stable w w' hr hi h⟩

/-! ### What is sent -/

variable {runId : UUID} (hrun : OneRun runId targets)
include hrun

theorem submitLimit_driven (o : Options K) (ks : KillSwitch) (h : Driven orders told targets 1 t leg w) :
    (Leg.submitLimit o ks).Meets C leg
      (fun x leg' w' => leg'.error = leg.error ∧ Driven orders told targets 2 t (leg'.settled x) w') w := by
  have h₂ : Driven orders told targets 2 t leg w := h.early (by omega) (by omega)
  refine Act.meets_get_bind.mpr ?_
  split
  · split
    · exact fun w' hr hi => ⟨rfl, ((hB.driven 2 t leg).stable w w' hr hi h₂).settled (.error _)⟩
    · next price _ =>
      have hid : (Leg.limitOrder o leg price).clientOrderId = t.limId := by rw [← h.target]; rfl
      have hqty : (Leg.limitOrder o leg price).qty = t.qty := by rw [← h.target]; rfl
      have hside : (Leg.limitOrder o leg price).side = t.side := by rw [← h.target]; rfl
      have hsent (w : W) : Permitted targets (orders w) (told w) (Leg.limitOrder o leg price) := by
        refine ⟨⟨t, h.mem, .inl hid, hside⟩, fun t' ht' heq => ?_, fun t' ht' heq => ?_⟩
        · rw [hqty, hrun.eq_of_clientId h.mem ht' (.inl (hid.symm.trans heq))]
        · exact absurd (hid.symm.trans heq) (limId_ne_mktId t t')
      refine (submitOnce_driven hB _ h₂ fun w _ _ => hsent w).bind ?_ ?_
      · rintro placed leg₁ w₁ - ⟨⟨rfl, hplaced⟩, h₁⟩
        refine Act.meets_modify_bind.mpr ((note_driven hB placed (h₁.limit (by omega) (hid ▸ hplaced placed rfl))).mono ?_)
        rintro x leg' w' - ⟨⟨fresh, records, rfl⟩, h'⟩
        exact ⟨rfl, h'.settled x⟩
      · rintro e leg₁ w₁ - ⟨⟨rfl, -⟩, h₁⟩
        exact ⟨rfl, h₁.settled (.error e)⟩
  · exact fun w' hr hi => ⟨rfl, ((hB.driven 2 t leg).stable w w' hr hi h₂).block⟩

theorem submitMarket_driven (ks : KillSwitch) (h : Driven orders told targets 4 t leg w) (hpending : leg.residualPending = true) :
    (Leg.submitMarket ks).Meets C leg
      (fun x leg' w' => leg'.error = leg.error ∧ Driven orders told targets 5 t (leg'.settled x) w') w := by
  have h₅ : Driven orders told targets 5 t leg w := h.late le_rfl (by omega)
  refine Act.meets_get_bind.mpr ?_
  have hid : leg.mktId = t.mktId := by rw [← h.target]; rfl
  have hfind : (request (.findByClientId leg.mktId) : Steps K (Leg K) (Option (BrokerOrder K))).Meets C leg
      (fun x leg' w' => (leg' = leg ∧ ∀ o, x = .ok (some o) → Known (orders w') (told w') t.mktId o) ∧
        Driven orders told targets 5 t leg w') w := by
    refine Act.Meets.frame ?_ (hB.driven 5 t leg) h₅
    refine meets_request_of fun w₁ hr hi => ⟨hB.others _ w₁ trivial (by simp) hi, fun reply w₂ hans hi₂ w₃ hr₃ hi₃ => ?_⟩
    refine ⟨rfl, fun o heq => ?_⟩
    cases reply with
    | error f => cases heq
    | ok found =>
      obtain rfl : found = some o := Except.ok.inj heq
      have hreported := hB.reports_known hans (o := o) (List.mem_singleton_self o)
      rw [(hB.answers _ w₁ _ w₂ hans).2.2, hid] at hreported
      exact (hB.known _ o).stable w₂ w₃ hr₃ hi₃ hreported
  refine hfind.bind ?_ ?_
  · rintro found leg₁ w₁ - ⟨⟨rfl, hfound⟩, h₁⟩
    cases found with
    | some o =>
      have hmarket := h₁.market (by omega) (hfound o rfl)
      exact fun w' hr hi => ⟨rfl, (hB.driven 5 t _).stable w₁ w' hr hi hmarket⟩
    | none =>
      dsimp only
      split
      · obtain ⟨lim, hlim, hsettles⟩ := (h₁.pending hpending).2
        have hmktId : (Leg.marketOrder leg₁).clientOrderId = t.mktId := hid
        have hside : (Leg.marketOrder leg₁).side = t.side := by rw [← h₁.target]; rfl
        have hsent (w : W) (_ : C.inv w) (hd : Driven orders told targets 5 t leg₁ w) :
            Permitted targets (orders w) (told w) (Leg.marketOrder leg₁) := by
          refine ⟨⟨t, h.mem, .inr hmktId, hside⟩, fun t' ht' heq => ?_, fun t' ht' heq => ?_⟩
          · exact absurd (heq.symm.trans hmktId) (limId_ne_mktId t' t)
          · rw [← hrun.eq_of_clientId h.mem ht' (.inr (hmktId.symm.trans heq))]
            exact ⟨lim, (hd.lim lim hlim).terminal hsettles.terminal, (hd.lim lim hlim).told, hsettles⟩
        refine (submitOnce_driven hB _ h₁ hsent).bind ?_ ?_
        · rintro placed leg₂ w₂ - ⟨⟨rfl, hplaced⟩, h₂⟩
          refine Act.meets_modify_bind.mpr ((note_driven hB placed (h₂.market (by omega) (hmktId ▸ hplaced placed rfl))).mono ?_)
          rintro x leg' w' - ⟨⟨fresh, records, rfl⟩, h'⟩
          exact ⟨rfl, h'.settled x⟩
        · rintro e leg₂ w₂ - ⟨⟨rfl, -⟩, h₂⟩
          exact ⟨rfl, h₂.settled (.error e)⟩
      · exact fun w' hr hi => ⟨rfl, ((hB.driven 5 t leg₁).stable w₁ w' hr hi h₁).block⟩
  · rintro e leg₁ w₁ - ⟨⟨rfl, -⟩, h₁⟩
    exact ⟨rfl, h₁.settled (.error e)⟩

/-! ### The book -/

omit hrun in
theorem init_driven {book : Book} (ht : t ∈ targets) :
    (Leg.init t : Steps K Book (Leg K)).Meets C book (Act.post (fun leg b w' => b = book ∧ leg.error = none ∧
      Driven orders told targets 0 t leg w') fun _ _ => True) w := by
  have hfind : (request (.findByClientId t.limId) : Steps K Book (Option (BrokerOrder K))).Meets C book
      (fun x b w' => b = book ∧ ∀ o, x = .ok (some o) → Known (orders w') (told w') t.limId o) w := by
    refine meets_request_of fun w₁ hr hi => ⟨hB.others _ w₁ trivial (by simp) hi, fun reply w₂ hans hi₂ w₃ hr₃ hi₃ => ?_⟩
    refine ⟨rfl, fun o heq => ?_⟩
    cases reply with
    | error f => cases heq
    | ok found =>
      obtain rfl : found = some o := Except.ok.inj heq
      have hreported := hB.reports_known hans (o := o) (List.mem_singleton_self o)
      rw [(hB.answers _ w₁ _ w₂ hans).2.2] at hreported
      exact (hB.known _ o).stable w₂ w₃ hr₃ hi₃ hreported
  refine hfind.bind ?_ fun _ _ _ _ _ => trivial
  rintro found b w₁ - ⟨rfl, hfound⟩ w₂ hr hi
  refine ⟨rfl, rfl, ht, rfl, ?_, fun o ho => by simp at ho, fun _ => ⟨rfl, rfl⟩, fun hp => by simp at hp, fun hn => by omega⟩
  rintro o rfl
  exact (hB.known _ o).stable w₁ w₂ hr hi (hfound o rfl)

omit hB hrun in
theorem Driven.opened (h : Driven orders told targets 0 t leg w) (ks : KillSwitch) :
    Driven orders told targets 0 t (leg.openForSubmit ks) w := by
  unfold Leg.openForSubmit
  split
  · exact h
  · split
    · exact { h with decided := fun hn => by omega }
    · exact h.block

/-- The phases of a book drive its names. -/
theorem drivenRules (o : Options K) :
    BookRules C o (fun _ _ => True) (fun n t leg _ => Driven orders told targets n t leg) fun _ => True where
  stable _ _ _ _ _ h := h
  call _ _ _ _ _ _ _ h := h
  kept n t leg _ := hB.driven n t leg
  grows _ _ _ _ h := h
  pause c w hc := hB.others c w (bookCall_of_pauses hc) fun r heq => by
    subst heq
    exact hc
  resolve _ _ _ _ _ _ _ h _ := resolveReference_driven hB (by omega) (by omega) h
  resolved _ _ _ _ h _ := h.early (by omega) (by omega)
  submit _ _ _ s _ _ _ h _ _ := submitLimit_driven hB hrun o s.trigger h
  submitted _ _ _ _ h _ := h.early (by omega) (by omega)
  cancel _ _ _ _ _ _ _ h _ := cancelLimit_driven hB h
  canceled _ _ _ _ h _ := h.early (by omega) (by omega)
  close _ _ _ _ _ _ _ h _ := closeLimit_driven hB h
  closed _ _ _ _ h hdead := h.failed (by omega) fun he => by simp [Leg.live, he] at hdead
  market _ _ _ s _ _ _ h _ hpending := submitMarket_driven hB hrun s.trigger h hpending
  marketed _ _ _ _ h _ := h.late (by omega) (by omega)
  settle _ _ _ _ _ _ _ h _ _ := closeMarket_driven hB h
  settled _ _ _ _ h _ := h.late (by omega) (by omega)
  wait _ _ _ _ _ hn _ _ h hwaiting := awaitOne_driven hB hn h hwaiting
  estable _ _ _ _ h := h

/-- A book only sends what it may send. -/
theorem executeBook_driven (o : Options K) {gate : Option (Steps K Switch Unit)} {s : Switch}
    (hgate : ∀ g ∈ gate, ∀ s w, C.inv w → g.Meets C s (fun _ _ _ => True) w) (hw : C.inv w) :
    (executeBook o targets gate).Meets C s (fun _ _ _ => True) w := by
  have hbegin : List.Forall₂ (fun t t' => ∀ book w, C.inv w → (Leg.init t' : Steps K Book (Leg K)).Meets C book
      (Act.post (fun leg b w' => b = book ∧ leg.error = none ∧ Driven orders told targets 0 t leg w') fun _ _ => True) w)
      targets targets := List.forall₂_same.mpr fun t ht book w _ => init_driven hB ht
  have hkeep : ∀ g ∈ gate, ∀ s w, C.inv w → True →
      g.Meets C s (Act.post (fun _ _ _ => True) fun _ _ => True) w := by
    intro g hg s w hw _
    refine (hgate g hg s w hw).mono ?_
    rintro (e | u) s' w' - -
    · trivial
    · trivial
  exact ((drivenRules hB hrun o).executeBook (fun t leg => hB.driven 0 t leg) hbegin
    (fun t leg _ s w _ h => h.opened s.trigger) hkeep (fun _ => trivial) (fun _ _ _ _ _ => trivial) hw trivial).mono
    fun _ _ _ _ _ => trivial

end Names
end Executor
end AsymmetricCommittee
