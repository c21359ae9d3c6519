import AsymmetricCommittee.Theorems.BookOrders
import AsymmetricCommittee.Contracts.Samples
import AsymmetricCommittee.Theorems.HaltSteps
import AsymmetricCommittee.Theorems.PlannedBook

/-! No double order across crashes: attempts at a book run in any number and end anywhere, orders fill between their calls, and
    replies are lost. Each target has at most one order of either kind, and both together fill no more than its quantity. -/

namespace AsymmetricCommittee
namespace Executor
open Brokerage ExecutionStage
variable {K : Type} [Field K] [LinearOrder K]

/-! ### The attempts -/

/-- The broker's side: the orders that it has accepted, and those that it has reported to any attempt. -/
structure Account (K : Type) [Field K] [LinearOrder K] where
  orders : List (BrokerOrder K)
  told : List (BrokerOrder K)

/-- The client ids of a book. -/
def Own (targets : List (ExecutionTarget K)) (id : String) : Prop := ∃ t ∈ targets, id = t.limId ∨ id = t.mktId

/-- Every call but a submission. -/
def Sendless : (desk K).Call → Prop
  | .request (.submit _) => False
  | _ => True

variable [FloorRing K] {targets : List (ExecutionTarget K)}

/-- Attempts at a book, under any options and with any gate that submits nothing. -/
def attempts (targets : List (ExecutionTarget K)) : Dynamics (desk K) (Account K) where
  moves a a' := Moves (Own targets) a.orders a'.orders ∧ a'.told = a.told
  answers _ c a r a' := Answers a.orders c r a'.orders ∧ a'.told = a.told ++ reported c r
  starts _ _ p := ∃ o s gate, (∀ g ∈ gate, g.Uses Sendless) ∧ p = ((executeBook o targets gate).start s).void

omit [FloorRing K] in
/-- The steps of the switch submit nothing. -/
theorem sendlessRules : Halt.SwitchRules (Contract.traced fun (c : (desk K).Call) _ => Sendless c) fun _ _ => True := by
  refine ⟨fun _ _ _ _ _ h => h, fun c s w hc _ _ => ⟨?_, fun _ _ _ => trivial⟩,
    fun trigger s w _ _ => ⟨trivial, fun _ _ _ => trivial⟩, fun _ _ _ _ => trivial⟩
  unfold Halt.SwitchCall at hc
  split at hc
  all_goals trivial

/-- What the stage runs is such an attempt: its gate submits nothing. -/
theorem starts_stage {O Header : Type} (e : Stage K O Header) (runId : UUID) (s : Switch) (n : Nat) (a : Account K) :
    (attempts targets).starts n a ((executeBook e.options targets (some (gate e runId))).start s).void := by
  refine ⟨e.options, s, some (gate e runId), ?_, rfl⟩
  rintro g ⟨⟩ s'
  exact Program.Meets.uses (keeps_gate e sendlessRules runId s' [] trivial trivial)

/-! ### What each attempt keeps -/

/-- What an attempt knows of the broker and of the other attempts. -/
def attempt (targets : List (ExecutionTarget K)) : Contract (desk K) (Account K) where
  inv a := Books targets a.orders
  rely a a' := Forward a.orders a'.orders ∧ a.told ⊆ a'.told
  allowed c a := ∀ r, c = .request (.submit r) → Permitted targets a.orders a.told r
  answers c a r a' := Answers a.orders c r a'.orders ∧ a'.told = a.told ++ reported c r
  rely_refl a := ⟨.refl a.orders, fun _ h => h⟩
  rely_trans _ _ _ h h' := ⟨h.1.trans h'.1, fun _ ho => h'.2 (h.2 ho)⟩

theorem brokered_attempt : Brokered Account.orders Account.told targets (attempt targets) where
  books _ h := h
  rely _ _ h _ := h.1
  heard _ _ h := h.2
  answers _ _ _ _ h := h.1
  reports c a r a' h := by
    rw [h.2]
    exact ⟨List.subset_append_left _ _, List.subset_append_right _ _⟩
  submit r a _ h r' heq := by
    cases heq
    exact h
  others c a _ h _ r heq := absurd heq (h r)

theorem Settles.later {orders orders' : List (BrokerOrder K)} (h : Forward orders orders') {t : ExecutionTarget K} {qty : K}
    (hlim : ∃ lim ∈ orders, Settles t lim qty) : ∃ lim ∈ orders', Settles t lim qty := by
  obtain ⟨lim, hmem, hsettles⟩ := hlim
  exact ⟨lim, h.terminal hmem hsettles.terminal, hsettles⟩

/-- A permitted submission leaves the book as it should be. -/
theorem Books.accepts {orders told orders' : List (BrokerOrder K)} {r : OrderRequest K} {o : BrokerOrder K}
    (h : Books targets orders) (hr : Permitted targets orders told r) (haccepts : Accepts orders r o orders') :
    Books targets orders' := by
  obtain ⟨hfits, rfl, hkept⟩ := haccepts
  have hforward : Forward orders (orders ++ [o]) := fun o' ho' => ⟨o', List.mem_append_left _ ho', .refl o'⟩
  refine ⟨hkept, fun t ht o' ho' hid => ?_, fun t ht o' ho' hid => ?_⟩
  · rcases List.mem_append.mp ho' with ho' | ho'
    · exact h.limit t ht o' ho' hid
    · obtain rfl := List.mem_singleton.mp ho'
      rw [hfits.qty]
      exact hr.limit t ht (hfits.clientOrderId.symm.trans hid)
  · rcases List.mem_append.mp ho' with ho' | ho'
    · exact Settles.later hforward (h.market t ht o' ho' hid)
    · obtain rfl := List.mem_singleton.mp ho'
      rw [hfits.qty]
      obtain ⟨lim, hlim, -, hsettles⟩ := hr.market t ht (hfits.clientOrderId.symm.trans hid)
      exact ⟨lim, List.mem_append_left _ hlim, hsettles⟩

/-- So do fills and the orders of others. -/
theorem Books.moves {orders orders' : List (BrokerOrder K)} (h : Books targets orders)
    (hmoves : Moves (Own targets) orders orders') : Books targets orders' := by
  refine ⟨hmoves.kept, fun t ht o' ho' hid => ?_, fun t ht o' ho' hid => ?_⟩
  · obtain ⟨o, ho, hlater⟩ := hmoves.backward ho' ⟨t, ht, .inl hid⟩
    rw [hlater.qty]
    exact h.limit t ht o ho (hlater.clientOrderId ▸ hid)
  · obtain ⟨o, ho, hlater⟩ := hmoves.backward ho' ⟨t, ht, .inr hid⟩
    rw [hlater.qty]
    exact Settles.later hmoves.forward (h.market t ht o ho (hlater.clientOrderId ▸ hid))

theorem gate_meets {g : Steps K Switch Unit} (hg : g.Uses Sendless) (s : Switch) (a : Account K) :
    g.Meets (attempt targets) s (fun _ _ _ => True) a := by
  refine Program.Meets.mono (Program.Uses.meets (hg s) (P := fun _ => True) (fun _ _ _ _ h => h) ?_ trivial)
    fun _ _ _ h => h
  refine fun c a hc _ _ => ⟨?_, fun _ _ _ => trivial⟩
  rintro r rfl
  exact hc.elim

/-- Every attempt keeps the book, whatever the others do. -/
theorem sound_attempts {runId : UUID} (hrun : OneRun runId targets) :
    Pool.Sound (attempts targets) (fun _ => attempt targets) fun a => Books targets a.orders where
  invs _ _ h := h
  move a a' h hmoves := by
    refine ⟨h.moves hmoves.1, fun n => ⟨hmoves.1.forward, ?_⟩⟩
    rw [hmoves.2]
    exact List.Subset.refl _
  call n c a r a' h hallowed hans := by
    have hrely : (attempt targets).rely a a' := by
      refine ⟨hans.1.forward, ?_⟩
      rw [hans.2]
      exact List.subset_append_left _ _
    refine ⟨?_, hans, fun k _ => hrely⟩
    rcases hans.1.cases with hsame | ⟨sent, o, rfl, haccepts⟩
    · rwa [hsame]
    · exact h.accepts (hallowed sent rfl) haccepts
  start n a p h hstart := by
    obtain ⟨o, s, gate, hgate, rfl⟩ := hstart
    exact (executeBook_driven brokered_attempt hrun o (fun g hg s a _ => gate_meets (hgate g hg) s a) h).void

/-! ### Totals -/

/-- What is filled under a client id. -/
def filledUnder (orders : List (BrokerOrder K)) (id : String) : K :=
  ((orders.filter fun o => o.clientOrderId.val = id).map fun o => o.filledQty.val).sum

section Rounding
variable [IsStrictOrderedRing K]

theorem round6_le (x : K) : round6 x ≤ x + halfUnit K := by
  have hnear := (abs_le.mp (nearestEven_roundHalfEven (x * 1000000)).1).1
  rw [round6, halfUnit, div_le_iff₀ (by norm_num)]
  linarith

/-- Both orders of a target together fill at most its quantity, up to the rounding of the residual. -/
theorem Books.total {orders : List (BrokerOrder K)} (h : Books targets orders) {t : ExecutionTarget K} (ht : t ∈ targets)
    (hqty : 0 ≤ t.qty) : filledUnder orders t.limId + filledUnder orders t.mktId ≤ t.qty + halfUnit K := by
  have hhalf : (0 : K) ≤ halfUnit K := by norm_num [halfUnit]
  rcases h.kept.under t.mktId with hmkt | ⟨mkt, hmkt, hmktId, hmktOnly⟩
  · rcases h.kept.under t.limId with hlim | ⟨lim, hlim, hlimId, hlimOnly⟩
    · simp only [filledUnder, hlim, hmkt, List.map_nil, List.sum_nil]
      linarith
    · simp only [filledUnder, hlimOnly, hmkt, List.map_cons, List.map_nil, List.sum_cons, List.sum_nil]
      have hfilled := h.kept.filled lim hlim
      have hlimit := h.limit t ht lim hlim hlimId
      linarith
  · obtain ⟨lim, hlim, hsettles⟩ := h.market t ht mkt hmkt hmktId
    rcases h.kept.under t.limId with hnone | ⟨lim', hlim', hlimId', hlimOnly⟩
    · have hmem : lim ∈ orders.filter fun o => o.clientOrderId.val = t.limId :=
        List.mem_filter.mpr ⟨hlim, decide_eq_true hsettles.id⟩
      simp [hnone] at hmem
    · obtain rfl : lim = lim' := h.kept.eq_of_clientOrderId hlim hlim' (Subtype.ext (hsettles.id.trans hlimId'.symm))
      simp only [filledUnder, hlimOnly, hmktOnly, List.map_cons, List.map_nil, List.sum_cons, List.sum_nil]
      have hfilled := h.kept.filled mkt hmkt
      have hround := round6_le (t.qty - lim.filledQty.val)
      rw [hsettles.qty] at hfilled
      linarith

/-! ### Every run -/

/-- In every run of attempts at a book each client id has at most one order, the market order is only sent once the limit
    order was reported terminal, and both together fill at most the target, up to the rounding of the residual. -/
theorem never_doubled {runId : UUID} (hrun : OneRun runId targets) (a : Account K) (hkept : Kept a.orders)
    (hnew : ∀ o ∈ a.orders, ¬Own targets o.clientOrderId.val) (s : Pool (desk K) (Account K))
    (hreaches : Pool.Reaches (attempts targets) (Pool.idle a) s) (t : ExecutionTarget K) (ht : t ∈ targets) :
    (s.world.orders.filter fun o => o.clientOrderId.val = t.limId).length ≤ 1 ∧
      (s.world.orders.filter fun o => o.clientOrderId.val = t.mktId).length ≤ 1 ∧
      (∀ n r next, s.procs n = some (.call (.request (.submit r)) next) → r.clientOrderId = t.mktId →
        ∃ lim ∈ s.world.orders, lim ∈ s.world.told ∧ lim.clientOrderId.val = t.limId ∧ lim.status.terminal = true) ∧
      (0 ≤ t.qty → filledUnder s.world.orders t.limId + filledUnder s.world.orders t.mktId ≤ t.qty + halfUnit K) := by
  have hbooks : Books targets a.orders := ⟨hkept, fun t ht o ho hid => absurd ⟨t, ht, .inl hid⟩ (hnew o ho),
    fun t ht o ho hid => absurd ⟨t, ht, .inr hid⟩ (hnew o ho)⟩
  have hsound := sound_attempts hrun
  have hgood := (Pool.good_idle (C := fun _ => attempt targets) hbooks).reaches hsound hreaches
  have hone (id : String) : (s.world.orders.filter fun o => o.clientOrderId.val = id).length ≤ 1 := by
    rcases hgood.world.kept.under id with hnone | ⟨o, -, -, hone⟩
    · simp [hnone]
    · simp [hone]
  refine ⟨hone _, hone _, fun n r next hnext hid => ?_, hgood.world.total ht⟩
  obtain ⟨lim, hlim, htold, hsettles⟩ := (hgood.allowed hsound hnext r rfl).market t ht hid
  exact ⟨lim, hlim, htold, hsettles.id, hsettles.terminal⟩

end Rounding

/-! ### A lost reply -/

/-- A hundred shares to buy. -/
def hundred : ExecutionTarget ℚ := ⟨⟨1⟩, ⟨1, Samples.one_securityId⟩, "AAA", .buy, 100, 10⟩

/-- Its limit order at the broker. -/
def hundredLimit (filled : NonNegative ℚ) (status : BrokerOrderStatus) : BrokerOrder ℚ where
  brokerOrderId := ⟨"B1", Samples.label_b1⟩
  clientOrderId := ⟨"00000000-0000-0000-0000-000000000001-1-lim", Samples.label_limit⟩
  symbol := ⟨"AAA", Samples.label_aaa⟩
  side := .buy
  kind := .limit
  qty := ⟨100, Samples.hundred_positive ℚ⟩
  filledQty := filled
  limitPrice := some ⟨10, Samples.ten_positive ℚ⟩
  filledAvgPrice := none
  status := status
  submittedAt := ⟨0, 0⟩
  filledAt := none

/-- And its market order for what is left. -/
def sixtyMarket : BrokerOrder ℚ :=
  { hundredLimit ⟨60, by decide⟩ .filled with
    brokerOrderId := ⟨"B2", Samples.label_b2⟩
    clientOrderId := ⟨"00000000-0000-0000-0000-000000000001-1-mkt", by decide⟩
    kind := .market
    qty := ⟨60, by decide⟩
    limitPrice := none }

def hundredOpen : BrokerOrder ℚ := hundredLimit ⟨0, nonNegative_zero ℚ⟩ .open

def fortyFilled : BrokerOrder ℚ := hundredLimit ⟨40, by decide⟩ .canceled

/-- The broker opens the limit order, and fills the market order at once. -/
def placeHundred (r : OrderRequest ℚ) : Option (BrokerOrder ℚ) :=
  if r.clientOrderId = hundred.limId then some hundredOpen else some sixtyMarket

/-- The reference is ten, and nothing is kept as evidence. -/
def hundredAnswer : (c : DeskCall ℚ) → Account ℚ → c.Reply × Account ℚ
  | .request (.findExecution _), a => (.ok none, a)
  | .request (.recordExecutions _), a => (.ok (), a)
  | .request (.reference _), a => (.ok (10, .iexMid), a)
  | c, a => ((serve placeHundred a.orders c).1, ⟨(serve placeHundred a.orders c).2,
      a.told ++ reported c (serve placeHundred a.orders c).1⟩)

theorem answers_hundred (n : Nat) (c : DeskCall ℚ) (a : Account ℚ) :
    (attempts [hundred]).answers n c a (hundredAnswer c a).1 (hundredAnswer c a).2 := by
  have hserve := answers_serve placeHundred a.orders c
  unfold hundredAnswer
  split
  · exact ⟨rfl, (List.append_nil _).symm⟩
  · exact ⟨rfl, (List.append_nil _).symm⟩
  · exact ⟨rfl, (List.append_nil _).symm⟩
  · exact ⟨hserve, rfl⟩

/-- An attempt at the hundred shares. -/
def buyHundred : Program (desk ℚ) Unit := ((executeBook ⟨0, 0, 0, 0⟩ [hundred] none).start ⟨none, false⟩).void

/-- What the broker has after some calls of it. -/
def afterHundred (calls : Nat) (a : Account ℚ) : Account ℚ :=
  Program.after (I := desk ℚ) (W := Account ℚ) hundredAnswer calls buyHundred a

/-- An attempt is begun, and dies after some calls. -/
theorem attempt_dies {s : Pool (desk ℚ) (Account ℚ)} (hidle : s.procs 0 = none) (calls : Nat) :
    ∃ s', Pool.Reaches (attempts [hundred]) s s' ∧ s'.procs 0 = none ∧ s'.world = afterHundred calls s.world := by
  have hstart : (attempts [hundred]).starts 0 s.world buyHundred := ⟨_, _, none, nofun, rfl⟩
  have h := Relation.ReflTransGen.single (Pool.Step.start hidle hstart)
  have h := h.trans (Pool.reaches_left (answers_hundred 0) (Pool.procs_set s 0 _) calls)
  exact ⟨_, h.tail (.stop 0), Pool.procs_set _ 0 none, rfl⟩

/-- What an order is known by, and how much of it is filled. -/
def summary (o : BrokerOrder ℚ) : String × ℚ × ℚ := (o.clientOrderId.val, o.qty.val, o.filledQty.val)

theorem opens_hundred : afterHundred 5 ⟨[], []⟩ = ⟨[hundredOpen], [hundredOpen]⟩ := by with_unfolding_all rfl

theorem buys_sixty : (afterHundred 20 ⟨[fortyFilled], [hundredOpen]⟩).orders.map summary =
    [(hundred.limId, 100, 40), (hundred.mktId, 60, 60)] := by decide +kernel

/-- The attempt dies before it is told of its limit order; forty shares are bought before the order is canceled, and the next
    attempt buys the other sixty. -/
theorem never_doubled_lost : ∃ s, Pool.Reaches (attempts [hundred]) (Pool.idle ⟨[], []⟩) s ∧
    s.world.orders.map summary = [(hundred.limId, 100, 40), (hundred.mktId, 60, 60)] ∧
    filledUnder s.world.orders hundred.limId + filledUnder s.world.orders hundred.mktId ≤ 100 + halfUnit ℚ := by
  have hforty : Kept [fortyFilled] := by decide
  have hrun : OneRun ⟨1⟩ [hundred] := ⟨by simp [hundred], by simp⟩
  obtain ⟨s₁, h₁, hidle, hw₁⟩ := attempt_dies (s := Pool.idle ⟨[], []⟩) rfl 5
  have hworld : s₁.world = ⟨[hundredOpen], [hundredOpen]⟩ := hw₁.trans opens_hundred
  have hfill : Pool.Step (attempts [hundred]) s₁ ⟨⟨[fortyFilled], [hundredOpen]⟩, s₁.procs⟩ := by
    refine .move ⟨?_, ?_⟩
    · rw [hworld]
      exact ⟨⟨[fortyFilled], [], rfl, .cons ⟨rfl, rfl, rfl, rfl, nofun⟩ .nil, List.forall_mem_nil _⟩, hforty⟩
    · rw [hworld]
  obtain ⟨s₂, h₂, -, hw₂⟩ := attempt_dies (s := ⟨⟨[fortyFilled], [hundredOpen]⟩, s₁.procs⟩) hidle 20
  have hreaches : Pool.Reaches (attempts [hundred]) (Pool.idle ⟨[], []⟩) s₂ := (h₁.tail hfill).trans h₂
  have hnever := never_doubled hrun ⟨[], []⟩ ⟨by simp, by simp, by simp⟩ (by simp) s₂ hreaches hundred List.mem_cons_self
  refine ⟨s₂, hreaches, ?_, hnever.2.2.2 (by norm_num [hundred])⟩
  rw [hw₂]
  exact buys_sixty

end Executor
end AsymmetricCommittee
