import Mathlib.Data.Rat.Floor
import AsymmetricCommittee.Contracts.Samples
import AsymmetricCommittee.Orchestration.OrderEvidence

/-! The stored evidence of an order over every interleaving of its writers. The reference that was recorded first stays; the
    state of the order is that of the last write, so it only moves forward if no write is late. -/

namespace AsymmetricCommittee
namespace OrderEvidence

section States
variable {K : Type} [Field K] [LinearOrder K] {broker : Nat → Label → Option (BrokerOrder K)} {s s' : System K} {e : Event K}
  {events later : List (Event K)} {orders orders' : List (ExecutionRecord K)} {o o' r : ExecutionRecord K}

/-- The successive states of an order at the broker. -/
structure BrokerForward (broker : Nat → Label → Option (BrokerOrder K)) : Prop where
  own : ∀ t id b, broker t id = some b → b.brokerOrderId = id
  filled : ∀ t t' id b b', t ≤ t' → broker t id = some b → broker t' id = some b' → b.filledQty.val ≤ b'.filledQty.val
  terminal : ∀ t t' id b b', t ≤ t' → broker t id = some b → broker t' id = some b' → b.status.terminal = true →
    b'.status.terminal = true

/-- What an upsert never touches. -/
structure SameReference (o o' : ExecutionRecord K) : Prop where
  order : o'.brokerOrderId = o.brokerOrderId
  price : o'.referencePrice = o.referencePrice
  source : o'.referenceSource = o.referenceSource
  decision : o'.decisionPrice = o.decisionPrice

/-- The state of an order moved forward. -/
structure Forward (o o' : ExecutionRecord K) : Prop where
  terminal : o.status.terminal = true → o'.status.terminal = true
  filled : o.filledQty.val ≤ o'.filledQty.val

theorem SameReference.refl (o : ExecutionRecord K) : SameReference o o := ⟨rfl, rfl, rfl, rfl⟩

theorem SameReference.trans {o'' : ExecutionRecord K} (h : SameReference o o') (h' : SameReference o' o'') : SameReference o o'' :=
  ⟨h'.order.trans h.order, h'.price.trans h.price, h'.source.trans h.source, h'.decision.trans h.decision⟩

theorem Forward.refl (o : ExecutionRecord K) : Forward o o := ⟨id, le_rfl⟩

theorem Forward.trans {o'' : ExecutionRecord K} (h : Forward o o') (h' : Forward o' o'') : Forward o o'' :=
  ⟨fun ho => h'.terminal (h.terminal ho), h.filled.trans h'.filled⟩

/-! ### One record -/

/-- A row of the record's order takes its state, another one is as it was, and the record is added if its order is new. -/
theorem upsertRecord_cases (h : upsertRecord orders r = some orders') :
    (orders' = orders.map fun o => if o.brokerOrderId = r.brokerOrderId then setMutable o r else o) ∨
      ((∀ o ∈ orders, o.brokerOrderId ≠ r.brokerOrderId) ∧ orders' = orders ++ [r]) := by
  unfold upsertRecord at h
  split at h
  · exact .inl (Option.some.inj h).symm
  · next hnew =>
    split at h
    · cases h
    · refine .inr ⟨fun o ho heq => hnew (List.any_eq_true.mpr ⟨o, ho, decide_eq_true heq⟩), (Option.some.inj h).symm⟩

theorem mem_upsertRecord (h : upsertRecord orders r = some orders') (ho : o ∈ orders) :
    ∃ o' ∈ orders', o' = if o.brokerOrderId = r.brokerOrderId then setMutable o r else o := by
  rcases upsertRecord_cases h with rfl | ⟨hnew, rfl⟩
  · exact ⟨_, List.mem_map_of_mem ho, rfl⟩
  · exact ⟨o, List.mem_append_left _ ho, (if_neg (hnew o ho)).symm⟩

theorem of_mem_upsertRecord (h : upsertRecord orders r = some orders') (ho' : o' ∈ orders') :
    (∃ o ∈ orders, o.brokerOrderId ≠ r.brokerOrderId ∧ o' = o) ∨
      (o'.brokerOrderId = r.brokerOrderId ∧ o'.filledQty = r.filledQty ∧ o'.status = r.status) := by
  rcases upsertRecord_cases h with rfl | ⟨hnew, rfl⟩
  · obtain ⟨o, ho, rfl⟩ := List.mem_map.mp ho'
    split
    · next hsame => exact .inr ⟨hsame, rfl, rfl⟩
    · next hother => exact .inl ⟨o, ho, hother, rfl⟩
  · rcases List.mem_append.mp ho' with ho | ho
    · exact .inl ⟨o', ho, hnew o' ho, rfl⟩
    · obtain rfl := List.mem_singleton.mp ho
      exact .inr ⟨rfl, rfl, rfl⟩

theorem ids_upsertRecord (h : upsertRecord orders r = some orders') (hn : (orders.map (·.brokerOrderId)).Nodup) :
    (orders'.map (·.brokerOrderId)).Nodup := by
  rcases upsertRecord_cases h with rfl | ⟨hnew, rfl⟩
  · rw [List.map_map]
    have hids : (orders.map ((·.brokerOrderId) ∘ fun o => if o.brokerOrderId = r.brokerOrderId then setMutable o r else o)) =
        orders.map (·.brokerOrderId) := List.map_congr_left fun o _ => by
      rw [Function.comp_apply]
      split
      · rfl
      · rfl
    rwa [hids]
  · rw [List.map_append, List.map_singleton, List.nodup_append]
    refine ⟨hn, List.nodup_singleton _, fun a ha b hb hab => ?_⟩
    obtain ⟨o, ho, rfl⟩ := List.mem_map.mp ha
    exact hnew o ho (hab.trans (List.mem_singleton.mp hb))

/-! ### One event -/

/-- A record has the state that the broker told at a time. -/
def Told (broker : Nat → Label → Option (BrokerOrder K)) (t : Nat) (r : ExecutionRecord K) : Prop :=
  ∃ b, broker t r.brokerOrderId = some b ∧ r.filledQty = b.filledQty ∧ r.status = b.status

/-- Rows are one per order with the state of their stamp, and held records have the state of their time. -/
structure Invariant (broker : Nat → Label → Option (BrokerOrder K)) (s : System K) : Prop where
  ids : (s.orders.map (·.brokerOrderId)).Nodup
  rows : ∀ o ∈ s.orders, Told broker (s.stamp o.brokerOrderId) o
  held : ∀ e ∈ s.held, Told broker e.1 e.2

theorem invariant_start : Invariant broker (System.start : System K) := ⟨List.nodup_nil, by simp [System.start], by simp [System.start]⟩

theorem told_record {target : ExecutionTarget K} {b : BrokerOrder K} {price : K} {source : ReferenceSource} {t : Nat} {id : Label}
    (hown : b.brokerOrderId = id) (hb : broker t id = some b) (h : Executor.record target b price source = .ok r) :
    Told broker t r := by
  unfold Executor.record at h
  split at h
  · obtain rfl := Except.ok.inj h
    exact ⟨b, hown ▸ hb, rfl, rfl⟩
  · cases h

theorem told_refreshRecord {b : BrokerOrder K} {t : Nat} (hb : broker t o.brokerOrderId = some b)
    (h : refreshRecord o b = some r) : Told broker t r := by
  unfold refreshRecord at h
  split at h
  · cases h
  · obtain rfl := Option.some.inj h
    exact ⟨b, hb, rfl, rfl⟩

/-- An event is a write that succeeds, or leaves the orders and their stamps; what is held then is told. -/
theorem step_cases (hbroker : BrokerForward broker) (hinv : Invariant broker s) (h : s.step broker e = some s') :
    (∃ i entry orders, e = .write i ∧ s.held[i]? = some entry ∧ recordExecutions s.orders [entry.2] = some orders ∧
        s' = { s with
          orders := orders
          held := s.held.eraseIdx i
          stamp := fun id => if id = entry.2.brokerOrderId then entry.1 else s.stamp id }) ∨
      (s'.orders = s.orders ∧ s'.stamp = s.stamp ∧ ∀ entry ∈ s'.held, Told broker entry.1 entry.2) := by
  cases e with
  | tick =>
    obtain rfl := Option.some.inj h
    exact .inr ⟨rfl, rfl, hinv.held⟩
  | note target price source id =>
    obtain ⟨b, hb, h⟩ := Option.bind_eq_some_iff.mp h
    cases hrecord : Executor.record target b price source with
    | error _ =>
      rw [hrecord] at h
      cases h
    | ok r =>
      rw [hrecord] at h
      obtain rfl := Option.some.inj h
      refine .inr ⟨rfl, rfl, fun entry hentry => ?_⟩
      rcases List.mem_append.mp hentry with hentry | hentry
      · exact hinv.held entry hentry
      · obtain rfl := List.mem_singleton.mp hentry
        exact told_record (hbroker.own _ _ _ hb) hb hrecord
  | load runId =>
    obtain rfl := Option.some.inj h
    exact .inr ⟨rfl, rfl, hinv.held⟩
  | refresh i =>
    obtain ⟨stored, -, h⟩ := Option.bind_eq_some_iff.mp h
    obtain ⟨b, hb, h⟩ := Option.bind_eq_some_iff.mp h
    obtain ⟨fresh, hfresh, rfl⟩ := Option.map_eq_some_iff.mp h
    split
    · refine .inr ⟨rfl, rfl, fun entry hentry => ?_⟩
      rcases List.mem_append.mp hentry with hentry | hentry
      · exact hinv.held entry hentry
      · obtain rfl := List.mem_singleton.mp hentry
        exact told_refreshRecord hb hfresh
    · exact .inr ⟨rfl, rfl, hinv.held⟩
  | write i =>
    obtain ⟨entry, hentry, rfl⟩ := Option.map_eq_some_iff.mp h
    cases horders : recordExecutions s.orders [entry.2] with
    | none => exact .inr ⟨rfl, rfl, fun x hx => hinv.held x (List.mem_of_mem_eraseIdx hx)⟩
    | some orders => exact .inl ⟨i, entry, orders, rfl, hentry, horders, rfl⟩
  | lost i =>
    obtain rfl := Option.some.inj h
    exact .inr ⟨rfl, rfl, fun x hx => hinv.held x (List.mem_of_mem_eraseIdx hx)⟩

theorem recordExecutions_single (h : recordExecutions orders [r] = some orders') : upsertRecord orders r = some orders' := by
  unfold recordExecutions at h
  rw [List.foldlM_cons] at h
  obtain ⟨next, hnext, hrest⟩ := Option.bind_eq_some_iff.mp h
  obtain rfl : next = orders' := Option.some.inj hrest
  exact hnext

theorem Invariant.step (hbroker : BrokerForward broker) (hinv : Invariant broker s) (h : s.step broker e = some s') :
    Invariant broker s' := by
  rcases step_cases hbroker hinv h with ⟨i, entry, orders, -, hentry, horders, rfl⟩ | ⟨horders, hstamp, hheld⟩
  · have hupsert := recordExecutions_single horders
    have htold := hinv.held entry (List.mem_of_getElem? hentry)
    refine ⟨ids_upsertRecord hupsert hinv.ids, fun o ho => ?_, fun x hx => hinv.held x (List.mem_of_mem_eraseIdx hx)⟩
    rcases of_mem_upsertRecord hupsert ho with ⟨o₀, ho₀, hother, rfl⟩ | ⟨hid, hfilled, hstatus⟩
    · dsimp only
      rw [if_neg hother]
      exact hinv.rows o ho₀
    · obtain ⟨b, hb, hbfilled, hbstatus⟩ := htold
      dsimp only
      rw [if_pos hid]
      exact ⟨b, hid ▸ hb, hfilled.trans hbfilled, hstatus.trans hbstatus⟩
  · refine ⟨horders ▸ hinv.ids, fun o ho => ?_, hheld⟩
    rw [hstamp]
    exact hinv.rows o (horders ▸ ho)

/-- After an event every order still has its reference. -/
theorem reference_step (hbroker : BrokerForward broker) (hinv : Invariant broker s) (h : s.step broker e = some s') :
    ∀ o ∈ s.orders, ∃ o' ∈ s'.orders, SameReference o o' := by
  intro o ho
  rcases step_cases hbroker hinv h with ⟨i, entry, orders, -, -, horders, rfl⟩ | ⟨horders, -, -⟩
  · obtain ⟨o', ho', heq⟩ := mem_upsertRecord (recordExecutions_single horders) ho
    refine ⟨o', ho', ?_⟩
    rw [heq]
    split
    · exact ⟨rfl, rfl, rfl, rfl⟩
    · exact SameReference.refl o
  · exact ⟨o, horders ▸ ho, SameReference.refl o⟩

/-- After an event that is no late write, every order has moved forward. -/
theorem forward_step (hbroker : BrokerForward broker) (hinv : Invariant broker s) (h : s.step broker e = some s')
    (hlate : s.late e = false) : ∀ o ∈ s.orders, ∃ o' ∈ s'.orders, o'.brokerOrderId = o.brokerOrderId ∧ Forward o o' := by
  intro o ho
  rcases step_cases hbroker hinv h with ⟨i, entry, orders, rfl, hentry, horders, rfl⟩ | ⟨horders, -, -⟩
  · obtain ⟨o', ho', heq⟩ := mem_upsertRecord (recordExecutions_single horders) ho
    refine ⟨o', ho', ?_⟩
    rw [heq]
    split
    · next hid =>
      refine ⟨rfl, ?_⟩
      have hstamp : s.stamp entry.2.brokerOrderId ≤ entry.1 := by
        by_contra hlt
        have hstored : (s.orders.any fun o => o.brokerOrderId = entry.2.brokerOrderId) = true :=
          List.any_eq_true.mpr ⟨o, ho, decide_eq_true hid⟩
        simp [System.late, hentry, hstored, not_le.mp hlt] at hlate
      obtain ⟨b, hb, hfilled, hstatus⟩ := hinv.rows o ho
      obtain ⟨b', hb', hfilled', hstatus'⟩ := hinv.held entry (List.mem_of_getElem? hentry)
      rw [hid] at hb
      refine ⟨fun hterminal => ?_, ?_⟩
      · show entry.2.status.terminal = true
        rw [hstatus']
        exact hbroker.terminal _ _ _ b b' hstamp hb hb' (hstatus ▸ hterminal)
      · show o.filledQty.val ≤ entry.2.filledQty.val
        rw [hfilled, hfilled']
        exact hbroker.filled _ _ _ b b' hstamp hb hb'
    · exact ⟨rfl, Forward.refl o⟩
  · exact ⟨o, horders ▸ ho, rfl, Forward.refl o⟩

/-! ### Runs -/

theorem Invariant.run (hbroker : BrokerForward broker) (hinv : Invariant broker s) (h : s.run broker events = some s') :
    Invariant broker s' := by
  induction events generalizing s with
  | nil =>
    obtain rfl := Option.some.inj h
    exact hinv
  | cons e events ih =>
    obtain ⟨next, hnext, h⟩ := Option.bind_eq_some_iff.mp h
    exact ih (hinv.step hbroker hnext) h

theorem reference_run (hbroker : BrokerForward broker) (hinv : Invariant broker s) (h : s.run broker events = some s') :
    ∀ o ∈ s.orders, ∃ o' ∈ s'.orders, SameReference o o' := by
  induction events generalizing s with
  | nil =>
    obtain rfl := Option.some.inj h
    exact fun o ho => ⟨o, ho, SameReference.refl o⟩
  | cons e events ih =>
    obtain ⟨next, hnext, h⟩ := Option.bind_eq_some_iff.mp h
    intro o ho
    obtain ⟨o₁, ho₁, hsame⟩ := reference_step hbroker hinv hnext o ho
    obtain ⟨o₂, ho₂, hsame'⟩ := ih (hinv.step hbroker hnext) h o₁ ho₁
    exact ⟨o₂, ho₂, hsame.trans hsame'⟩

theorem forward_run (hbroker : BrokerForward broker) (hinv : Invariant broker s) (h : s.run broker events = some s')
    (honTime : s.onTime broker events) :
    ∀ o ∈ s.orders, ∃ o' ∈ s'.orders, o'.brokerOrderId = o.brokerOrderId ∧ Forward o o' := by
  induction events generalizing s with
  | nil =>
    obtain rfl := Option.some.inj h
    exact fun o ho => ⟨o, ho, rfl, Forward.refl o⟩
  | cons e events ih =>
    obtain ⟨next, hnext, h⟩ := Option.bind_eq_some_iff.mp h
    intro o ho
    obtain ⟨o₁, ho₁, hid, hforward⟩ := forward_step hbroker hinv hnext honTime.1 o ho
    obtain ⟨o₂, ho₂, hid', hforward'⟩ := ih (hinv.step hbroker hnext) h (honTime.2 next hnext) o₁ ho₁
    exact ⟨o₂, ho₂, hid'.trans hid, hforward.trans hforward'⟩

theorem onTime_append (h : s.run broker events = some s') (honTime : s.onTime broker (events ++ later)) :
    s'.onTime broker later := by
  induction events generalizing s with
  | nil =>
    obtain rfl := Option.some.inj h
    exact honTime
  | cons e events ih =>
    obtain ⟨next, hnext, h⟩ := Option.bind_eq_some_iff.mp h
    exact ih h (honTime.2 next hnext)

/-- The row of an order is the only one. -/
theorem Invariant.row_unique (hinv : Invariant broker s) (ho : o ∈ s.orders) (ho' : o' ∈ s.orders)
    (h : o'.brokerOrderId = o.brokerOrderId) : o' = o :=
  List.inj_on_of_nodup_map hinv.ids ho' ho h

/-- Of an order that is stored, at every later state of a run: its reference price and source and its decision price are
    those that were recorded first, and if no write is late, a terminal status stays terminal and the filled quantity does
    not decrease. -/
theorem orders_moveForward (hbroker : BrokerForward broker) (h : System.start.run broker events = some s)
    (h' : s.run broker later = some s') (ho : o ∈ s.orders) :
    ∃ o' ∈ s'.orders, (∀ x ∈ s'.orders, x.brokerOrderId = o.brokerOrderId → x = o') ∧ SameReference o o' ∧
      (System.start.onTime broker (events ++ later) → Forward o o') := by
  have hinv := invariant_start.run hbroker h
  obtain ⟨o', ho', hsame⟩ := reference_run hbroker hinv h' o ho
  have hunique : ∀ x ∈ s'.orders, x.brokerOrderId = o.brokerOrderId → x = o' := fun x hx hid =>
    (hinv.run hbroker h').row_unique ho' hx (hid.trans hsame.order.symm)
  refine ⟨o', ho', hunique, hsame, fun honTime => ?_⟩
  obtain ⟨x, hx, hid, hforward⟩ := forward_run hbroker hinv h' (onTime_append h honTime) o ho
  obtain rfl := hunique x hx hid
  exact hforward

end States

/-! ### A late write -/

section Sample

def oneOrder : Label := ⟨"B1", Samples.label_b1⟩

/-- The order is open, then filled by half, and from then on filled. -/
def fillingBroker (t : Nat) (id : Label) : Option (BrokerOrder ℚ) :=
  if id = oneOrder then
    some ⟨oneOrder, ⟨"c1", by decide⟩, ⟨"S", by decide⟩, .buy, .limit, ⟨10, by norm_num⟩, ⟨5 * min t 2, by positivity⟩, none, none,
      if t = 0 then .open else if t = 1 then .partiallyFilled else .filled, ⟨0, 0⟩, none⟩
  else none

theorem fillingBroker_forward : BrokerForward fillingBroker := by
  have hsome (t : Nat) (id : Label) (b : BrokerOrder ℚ) (h : fillingBroker t id = some b) :
      b.brokerOrderId = id ∧ b.filledQty.val = 5 * min t 2 ∧
        b.status = if t = 0 then .open else if t = 1 then .partiallyFilled else .filled := by
    unfold fillingBroker at h
    split at h
    · next hid =>
      obtain rfl := Option.some.inj h
      exact ⟨hid.symm, rfl, rfl⟩
    · cases h
  refine ⟨fun t id b h => (hsome t id b h).1, fun t t' id b b' hle h h' => ?_, fun t t' id b b' hle h h' hterminal => ?_⟩
  · rw [(hsome t id b h).2.1, (hsome t' id b' h').2.1]
    have hmin : ((min t 2 : Nat) : ℚ) ≤ (min t' 2 : Nat) := Nat.cast_le.mpr (min_le_min hle le_rfl)
    linarith
  · rw [(hsome t id b h).2.2] at hterminal
    rw [(hsome t' id b' h').2.2]
    have ht : 2 ≤ t := by
      by_contra hlt
      interval_cases t <;> cases hterminal
    rw [if_neg (by omega), if_neg (by omega)]
    rfl

def oneTarget : ExecutionTarget ℚ := ⟨⟨1⟩, ⟨1, Samples.one_securityId⟩, "S", .buy, 10, 100⟩

/-- The reconciliation reads the order when it is filled by half; the executor writes that it is filled. -/
def beforeLate : List (Event ℚ) :=
  [.note oneTarget 100 .iexMid oneOrder, .write 0, .tick, .load ⟨1⟩, .refresh 0, .tick, .note oneTarget 100 .iexMid oneOrder,
    .write 1]

/-- What the orders of a state say of the sample's order. -/
def states (s : System ℚ) : List (BrokerOrderStatus × ℚ) := s.orders.map fun o => (o.status, o.filledQty.val)

theorem states_of_run {events : List (Event ℚ)} {s : System ℚ} {w : List (BrokerOrderStatus × ℚ)}
    (h : (s.run fillingBroker events).map states = some w) : ∃ s', s.run fillingBroker events = some s' ∧ states s' = w :=
  Option.map_eq_some_iff.mp h

/-- Then the reconciliation writes what it read: the filled order is filled by half again. -/
theorem late_write : ¬∀ (broker : Nat → Label → Option (BrokerOrder ℚ)) (events later : List (Event ℚ)) (s s' : System ℚ)
    (o : ExecutionRecord ℚ), BrokerForward broker → System.start.run broker events = some s → s.run broker later = some s' →
      o ∈ s.orders → ∃ o' ∈ s'.orders, o'.brokerOrderId = o.brokerOrderId ∧ Forward o o' := by
  intro hclaim
  have hrun : (System.start.run fillingBroker beforeLate).map (fun s => (states s, (s.run fillingBroker [.write 0]).map states)) =
      some ([(.filled, 10)], some [(.partiallyFilled, 5)]) := by decide +kernel
  obtain ⟨s, hs, hpair⟩ := Option.map_eq_some_iff.mp hrun
  obtain ⟨hbefore, hafter⟩ := Prod.mk.inj hpair
  obtain ⟨s', hs', hafter⟩ := states_of_run hafter
  have hmem : (.filled, 10) ∈ states s := by simp [hbefore]
  obtain ⟨o, ho, hstate⟩ := List.mem_map.mp hmem
  obtain ⟨o', ho', -, hforward⟩ := hclaim _ _ _ _ _ o fillingBroker_forward hs hs' ho
  have hmem' : (o'.status, o'.filledQty.val) ∈ states s' := List.mem_map_of_mem ho'
  rw [hafter] at hmem'
  have hstate' := List.mem_singleton.mp hmem'
  have hterminal := hforward.terminal (by rw [(Prod.mk.inj hstate).1]; rfl)
  rw [(Prod.mk.inj hstate').1] at hterminal
  cases hterminal

/-- Without the late write the order moves forward. -/
theorem orders_moveForward_sample : ∃ s s' : System ℚ, System.start.run fillingBroker (beforeLate.take 2) = some s ∧
    s.run fillingBroker (beforeLate.drop 2) = some s' ∧ ∀ o ∈ s.orders, ∃ o' ∈ s'.orders,
      (∀ x ∈ s'.orders, x.brokerOrderId = o.brokerOrderId → x = o') ∧ SameReference o o' ∧
        (System.start.onTime fillingBroker (beforeLate.take 2 ++ beforeLate.drop 2) → Forward o o') := by
  have hrun : ((System.start.run fillingBroker (beforeLate.take 2)).bind
      fun s => s.run fillingBroker (beforeLate.drop 2)).isSome := by decide +kernel
  obtain ⟨s', hs'⟩ := Option.isSome_iff_exists.mp hrun
  obtain ⟨s, hs, hs'⟩ := Option.bind_eq_some_iff.mp hs'
  exact ⟨s, s', hs, hs', fun o ho => orders_moveForward fillingBroker_forward hs hs' ho⟩

end Sample
end OrderEvidence
end AsymmetricCommittee
