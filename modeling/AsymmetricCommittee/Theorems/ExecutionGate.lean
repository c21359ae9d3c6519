import AsymmetricCommittee.Theorems.BookPhases
import AsymmetricCommittee.Contracts.Samples
import AsymmetricCommittee.Theorems.HaltSteps
import AsymmetricCommittee.Theorems.ScoringAdmission
import Mathlib.Data.Rat.Floor

/-! What the execution stage submits and when it marks a run executed, whatever it is answered: an order is only submitted
    after the run was loaded live and anchored, its rows recomputed to the committed hash, its anchor bound that hash and
    no halt was stored; a run is only marked once every target is filled up to the executor's tolerance. -/

namespace AsymmetricCommittee
namespace ExecutionStage
open OpenTimestamps Anchoring Executor
variable {K : Type} [Field K] [LinearOrder K] {O Header : Type}

/-! ### What is promised -/

/-- The proof is of the digest. -/
def Binds (ots : Package O Header) (proof : Bytes) (sha256 : Sha256Hex) : Prop :=
  ∃ file, loads ots proof = .ok file ∧ file.fileHashOp = .sha256 ∧ file.fileDigest = fromHex sha256.val.toList ∧
    file.timestamp.msg = fromHex sha256.val.toList

/-- The run may trade on what was loaded first, and no halt was stored then. -/
structure Gated (e : Stage K O Header) (runId : UUID) (run : RunRecord K) (material : CommitmentMaterial K) (w : Trace K) :
    Prop where
  began : [returned (.loadRun runId) (some run), returned (.loadCommitmentMaterial runId) (some material),
    returned (.loadKillSwitchEvents runId) []] <+: w
  live : run.mode = .live
  anchored : run.status = .anchored
  recomputes : commitmentHash e.sha256 e.floatText material.run material.decisions material.snapshot =
    .ok material.storedSha256
  anchor : ∃ anchor proof commit, material.anchor = some anchor ∧ anchor.sha256 = material.storedSha256 ∧
    anchor.otsProof = some proof ∧ anchor.gitCommit = some commit ∧ Binds e.ots proof material.storedSha256
  own : material.snapshot.runId = runId ∧ material.snapshot.book.runId = runId
  cio : material.snapshot.book.positions ≠ [] → material.snapshot.cio.isSome

/-- The broker reported an order with the client id: found by it, placed under it, or read after that. -/
inductive Reported (w : Trace K) (cid : String) : BrokerOrder K → Prop
  | found {order : BrokerOrder K} (h : returned (.findByClientId cid) (some order) ∈ w) : Reported w cid order
  | placed {sent : OrderRequest K} {order : BrokerOrder K} (hid : sent.clientOrderId = cid)
      (h : returned (.submit sent) order ∈ w) : Reported w cid order
  | read {order order' : BrokerOrder K} (hr : Reported w cid order)
      (h : returned (.getOrder order.brokerOrderId) order' ∈ w) : Reported w cid order'

/-- The target's limit order, alone or with its market order, was reported filled up to `tol` of the quantity. -/
def Filled (tol : K) (t : ExecutionTarget K) (w : Trace K) : Prop :=
  ∃ lim, Reported w (clientOrderId t.runId t.securityId "lim") lim ∧ (|t.qty - lim.filledQty.val| ≤ tol ∨
    ∃ mkt, Reported w (clientOrderId t.runId t.securityId "mkt") mkt ∧
      |t.qty - (lim.filledQty.val + mkt.filledQty.val)| ≤ tol)

/-- The store returned a record of the target's limit order. -/
def Evidenced (t : ExecutionTarget K) (w : Trace K) : Prop :=
  ∃ stored, returned (.findExecution (clientOrderId t.runId t.securityId "lim")) (some stored) ∈ w

section Promises
variable [FloorRing K]

/-- The run that was loaded passed the kill switch, planned these targets and drove them to these outcomes. -/
structure Drove (e : Stage K O Header) (runId : UUID) (run : RunRecord K) (material : CommitmentMaterial K) (s : Switch)
    (targets : List (ExecutionTarget K)) (outcomes : List (Outcome K)) (w : Trace K) : Prop where
  phases : ∃ s₁ s₂ opening plan trade rest,
    w = returned (.loadRun runId) (some run) :: returned (.loadCommitmentMaterial runId) (some material) ::
      (opening ++ (plan ++ (trade ++ rest))) ∧
    ((preflight e runId).start s).Runs opening (.done (.ok (), s₁)) ∧
    ((ExecutionStage.targets run material.snapshot.book).start s₁).Runs plan (.done (.ok targets, s₁)) ∧
    ((executeBook e.options targets (some (gate e runId))).start s₁).Runs trade (.done (.ok outcomes, s₂))

/-- Every target is filled up to `tol`, none was blocked, every limit order has a record, and the switch was never
    engaged. -/
structure Complete (e : Stage K O Header) (runId : UUID) (run : RunRecord K) (material : CommitmentMaterial K) (s : Switch)
    (tol : K) (w : Trace K) : Prop where
  targets : ∃ targets outcomes, Drove e runId run material s targets outcomes w ∧
    List.Forall₂ (fun t o => o.blockedByKillSwitch = false ∧ Filled tol t w ∧ Evidenced t w) targets outcomes
  unengaged : ¬Halt.Engaged w

/-- When an order may be submitted, and when the run may be marked. -/
def Allowed (e : Stage K O Header) (runId : UUID) (s : Switch) : (desk K).Call → Trace K → Prop
  | .request (.submit _), w => ∃ run material, Gated e runId run material w
  | .request (.markExecuted id _), w => id = runId ∧ ∃ run material, Gated e runId run material w ∧
      (run.runId = runId → Complete e runId run material s eps w)
  | _, _ => True

end Promises

/-! ### What more calls keep -/

section Kept
variable {e : Stage K O Header} {runId : UUID} {run : RunRecord K} {material : CommitmentMaterial K} {w : Trace K}
  {cid : String} {order : BrokerOrder K} (evs : Trace K)

theorem Gated.append (h : Gated e runId run material w) : Gated e runId run material (w ++ evs) :=
  { h with began := h.began.trans (List.prefix_append w evs) }

theorem Reported.append (h : Reported w cid order) : Reported (w ++ evs) cid order := by
  induction h with
  | found h => exact .found (List.mem_append_left evs h)
  | placed hid h => exact .placed hid (List.mem_append_left evs h)
  | read hr h ih => exact .read ih (List.mem_append_left evs h)

theorem Filled.append {tol : K} {t : ExecutionTarget K} (h : Filled tol t w) : Filled tol t (w ++ evs) := by
  obtain ⟨lim, hlim, hfilled | ⟨mkt, hmkt, hfilled⟩⟩ := h
  · exact ⟨lim, hlim.append evs, Or.inl hfilled⟩
  · exact ⟨lim, hlim.append evs, Or.inr ⟨mkt, hmkt.append evs, hfilled⟩⟩

theorem Drove.append [FloorRing K] {s : Switch} {targets : List (ExecutionTarget K)} {outcomes : List (Outcome K)}
    (h : Drove e runId run material s targets outcomes w) : Drove e runId run material s targets outcomes (w ++ evs) := by
  obtain ⟨s₁, s₂, opening, plan, trade, rest, rfl, hruns⟩ := h.phases
  exact ⟨s₁, s₂, opening, plan, trade, rest ++ evs, by simp, hruns⟩

end Kept

/-! ### One name -/

section Names
variable {e : Stage K O Header} {runId : UUID} {s₀ : Switch} {t : ExecutionTarget K} {leg : Leg K} {w : Trace K} {n : Nat}

/-- What a name has after a phase: its orders as the broker reported them, and the limit order unless it failed, was
    blocked or is still to be submitted. -/
structure Drives (n : Nat) (t : ExecutionTarget K) (leg : Leg K) (w : Trace K) : Prop where
  target : leg.target = t
  lim : ∀ order ∈ leg.lim, Reported w leg.limId order
  mkt : ∀ order ∈ leg.mkt, leg.lim.isSome ∧ Reported w leg.mktId order
  pending : leg.residualPending = true → leg.lim.isSome
  opened : leg.error = none → leg.lim.isSome ∨ leg.blocked = true ∨ n ≤ 1 ∧ leg.toSubmit = true

theorem Drives.append (h : Drives n t leg w) (evs : Trace K) : Drives n t leg (w ++ evs) :=
  { h with
    lim := fun order ho => (h.lim order ho).append evs
    mkt := fun order ho => ⟨(h.mkt order ho).1, (h.mkt order ho).2.append evs⟩ }

/-- A name that fails keeps its orders. -/
theorem Drives.settled (h : Drives n t leg w) (x : Except ExecError Unit) : Drives n t (leg.settled x) w := by
  cases x with
  | ok u => exact h
  | error e => exact { h with opened := fun he => absurd he (Option.some_ne_none e) }

theorem Drives.later (h : Drives n t leg w) {m : Nat} (hm : n ≤ 1 → m ≤ 1) : Drives m t leg w :=
  { h with opened := fun he => (h.opened he).imp_right fun h => h.imp_right fun h => ⟨hm h.1, h.2⟩ }

/-- Evidence does not matter. -/
theorem Drives.evidence (h : Drives n t leg w) (fresh : Option (K × ReferenceSource)) (price : Option K)
    (records : List (ExecutionRecord K)) :
    Drives n t { leg with fresh := fresh, price := price, records := records } w := { h with }

theorem Drives.limit (h : Drives n t leg w) {order : BrokerOrder K} (ho : Reported w leg.limId order) (m : Nat) :
    Drives m t { leg with lim := some order } w where
  target := h.target
  lim := by
    rintro order' ⟨⟩
    exact ho
  mkt order' ho' := ⟨rfl, (h.mkt order' ho').2⟩
  pending _ := rfl
  opened _ := Or.inl rfl

theorem Drives.market (h : Drives n t leg w) {order : BrokerOrder K} (hlim : leg.lim.isSome)
    (ho : Reported w leg.mktId order) : Drives n t { leg with mkt := some order } w where
  target := h.target
  lim := h.lim
  mkt := by
    rintro order' ⟨⟩
    exact ⟨hlim, ho⟩
  pending := h.pending
  opened := h.opened

theorem Drives.block (h : Drives n t leg w) (m : Nat) : Drives m t { leg with blocked := true } w :=
  { h with opened := fun _ => Or.inr (Or.inl rfl) }

theorem Drives.failed (h : Drives n t leg w) (error : ExecError) (m : Nat) :
    Drives m t (leg.settled (.error error)) w :=
  { h.settled (.error error) with opened := fun he => absurd he (Option.some_ne_none error) }

variable [FloorRing K]

theorem kept_drives : (Contract.traced (Allowed e runId s₀)).Kept (Drives n t leg) where
  stable _ _ hr _ h := hr ▸ h
  call c w r w' _ _ hans _ h := by
    subst hans
    exact h.append _

theorem allowed_evidence (c : (desk K).Call) (w : Trace K) (hc : EvidenceCall c) : Allowed e runId s₀ c w := by
  unfold EvidenceCall at hc
  split at hc
  all_goals trivial

theorem resolveReference_drives (h : Drives 0 t leg w) :
    (Leg.resolveReference : Steps K (Leg K) Unit).Meets (Contract.traced (Allowed e runId s₀)) leg
      (fun x leg' w' => leg'.error = leg.error ∧ Drives 1 t (leg'.settled x) w') w := by
  refine ((resolveReference_meets fun c w hc _ => allowed_evidence c w hc).frame kept_drives h).mono ?_
  rintro x leg' w' - ⟨⟨fresh, price, rfl⟩, h'⟩
  exact ⟨rfl, ((h'.later fun _ => le_rfl).evidence fresh price leg.records).settled x⟩

/-- Noting an order leaves the name as it was, up to evidence. -/
theorem note_drives (order : BrokerOrder K) (h : Drives n t leg w) :
    (Leg.note order).Meets (Contract.traced (Allowed e runId s₀)) leg
      (fun _ leg' w' => leg'.error = leg.error ∧ leg'.lim = leg.lim ∧ leg'.mkt = leg.mkt ∧ Drives n t leg' w') w := by
  refine ((note_meets (fun c w hc _ => allowed_evidence c w hc) order).frame kept_drives h).mono ?_
  rintro x leg' w' - ⟨⟨fresh, records, rfl⟩, h'⟩
  exact ⟨rfl, rfl, rfl, h'.evidence fresh leg.price records⟩

/-- What is placed, or found after a failure, is reported under the client id that was sent. -/
theorem submitOnce_reported (sent : OrderRequest K) (hgated : ∃ run material, Gated e runId run material w)
    (h : Drives n t leg w) : (Leg.submitOnce sent).Meets (Contract.traced (Allowed e runId s₀)) leg
      (fun x leg' w' => (leg' = leg ∧ ∀ placed, x = .ok placed → Reported w' sent.clientOrderId placed) ∧ Drives n t leg w')
      w := by
  refine Act.Meets.frame ?_ kept_drives h
  refine Act.meets_ask_bind.mpr (Contract.stays_traced.mpr ⟨hgated, fun reply w' hw' _ => ?_⟩)
  subst hw'
  cases reply with
  | ok placed =>
    refine Contract.stays_traced.mpr ⟨rfl, ?_⟩
    rintro placed' ⟨⟩
    exact .placed rfl (List.mem_append_right w (List.mem_singleton_self _))
  | error f =>
    dsimp only
    split
    · refine meets_request_bind trivial (fun found => ?_) fun f => ⟨rfl, fun _ h => by cases h⟩
      cases found with
      | none => exact Contract.stays_traced.mpr ⟨rfl, fun _ h => by cases h⟩
      | some order =>
        refine Contract.stays_traced.mpr ⟨rfl, ?_⟩
        rintro placed' ⟨⟩
        exact .found (List.mem_append_right _ (List.mem_singleton_self _))
    · exact Contract.stays_traced.mpr ⟨rfl, fun _ h => by cases h⟩

/-- What a step of a name comes to when it ends after the `n`-th phase. -/
def Ended (n : Nat) (t : ExecutionTarget K) (leg : Leg K) (x : Except ExecError Unit) (leg' : Leg K) (w : Trace K) : Prop :=
  leg'.error = leg.error ∧ Drives n t (leg'.settled x) w

theorem submitLimit_drives (o : Options K) (ks : KillSwitch) (hgated : ∃ run material, Gated e runId run material w)
    (h : Drives 1 t leg w) :
    (Leg.submitLimit o ks).Meets (Contract.traced (Allowed e runId s₀)) leg (Ended 2 t leg) w := by
  refine Act.meets_get_bind.mpr ?_
  split
  · split
    · exact Contract.stays_traced.mpr ⟨rfl, h.failed _ 2⟩
    · next price _ =>
      refine (submitOnce_reported _ hgated h).bind ?_ ?_
      · rintro placed leg₁ w₁ - ⟨⟨rfl, hplaced⟩, h₁⟩
        refine Act.meets_modify_bind.mpr ((note_drives placed (h₁.limit (hplaced placed rfl) 2)).mono ?_)
        rintro x leg' w' - ⟨herror, -, -, h'⟩
        exact ⟨herror, h'.settled x⟩
      · rintro error leg₁ w₁ - ⟨⟨rfl, -⟩, h₁⟩
        exact ⟨rfl, h₁.failed error 2⟩
  · exact Contract.stays_traced.mpr ⟨rfl, h.block 2⟩

theorem cancelOrder_drives (id : Label) (h : Drives n t leg w) :
    (Leg.cancelOrder id).Meets (Contract.traced (Allowed e runId s₀)) leg (Ended n t leg) w := by
  refine Act.meets_ask_bind.mpr (Contract.stays_traced.mpr ⟨trivial, fun reply w' hw' _ => ?_⟩)
  subst hw'
  split
  · exact Contract.stays_traced.mpr ⟨rfl, h.append _⟩
  · exact Contract.stays_traced.mpr ⟨rfl, h.append _⟩
  · exact Contract.stays_traced.mpr ⟨rfl, (h.append _).settled _⟩

theorem cancelLimit_drives (h : Drives 2 t leg w) :
    (Leg.cancelLimit : Steps K (Leg K) Unit).Meets (Contract.traced (Allowed e runId s₀)) leg (Ended 3 t leg) w := by
  refine Act.meets_get_bind.mpr ?_
  split
  · exact Contract.stays_traced.mpr ⟨rfl, h.later (by omega)⟩
  · next lim hlim =>
    split
    · exact Contract.stays_traced.mpr ⟨rfl, h.later (by omega)⟩
    · refine meets_request_bind trivial (fun order => ?_) fun f => ⟨rfl, (h.append _).failed _ 3⟩
      have hread : Reported (w ++ [returned (.getOrder lim.brokerOrderId) order]) leg.limId order :=
        .read ((h.lim lim hlim).append _) (List.mem_append_right w (List.mem_singleton_self _))
      refine Act.meets_modify_bind.mpr ?_
      have h' := (h.append [returned (.getOrder lim.brokerOrderId) order]).limit hread 3
      split
      · exact Contract.stays_traced.mpr ⟨rfl, h'⟩
      · exact cancelOrder_drives _ h'

theorem guardOverfill_drives (target : ExecutionTarget K) (filled : K) (h : Drives n t leg w) :
    (Leg.guardOverfill target filled).Meets (Contract.traced (Allowed e runId s₀)) leg
      (fun x leg' w' => leg' = leg ∧ Drives n t (leg'.settled x) w') w := by
  unfold Leg.guardOverfill
  split
  · exact Contract.stays_traced.mpr ⟨rfl, h.settled _⟩
  · exact Contract.stays_traced.mpr ⟨rfl, h⟩

theorem closeLimit_drives (h : Drives 3 t leg w) :
    (Leg.closeLimit : Steps K (Leg K) Unit).Meets (Contract.traced (Allowed e runId s₀)) leg (Ended 4 t leg) w := by
  refine Act.meets_get_bind.mpr ?_
  split
  · exact Contract.stays_traced.mpr ⟨rfl, h.later (by omega)⟩
  · next lim hlim =>
    refine (note_drives lim h).bind ?_ ?_
    · rintro u leg₁ w₁ - ⟨herror, hlim₁, -, h₁⟩
      split
      · refine (guardOverfill_drives leg.target lim.filledQty.val (h₁.later (by omega) : Drives 4 t leg₁ w₁)).bind ?_ ?_
        · rintro u leg₂ w₂ - ⟨rfl, h₂⟩
          split
          · exact Contract.stays_traced.mpr ⟨herror, h₂⟩
          · refine Contract.stays_traced.mpr ⟨herror, { h₂ with pending := fun _ => ?_ }⟩
            change leg₂.lim.isSome
            rw [hlim₁, hlim]
            rfl
        · rintro error leg₂ w₂ - ⟨rfl, h₂⟩
          exact ⟨herror, h₂⟩
      · exact Contract.stays_traced.mpr ⟨herror, h₁.failed _ 4⟩
    · rintro error leg₁ w₁ - ⟨herror, -, -, h₁⟩
      exact ⟨herror, h₁.failed error 4⟩

theorem submitMarket_drives (ks : KillSwitch) (hgated : ∃ run material, Gated e runId run material w)
    (h : Drives 4 t leg w) (hpending : leg.residualPending = true) :
    (Leg.submitMarket ks).Meets (Contract.traced (Allowed e runId s₀)) leg (Ended 5 t leg) w := by
  refine Act.meets_get_bind.mpr (meets_request_bind trivial (fun found => ?_) fun f => ⟨rfl, (h.append _).failed _ 5⟩)
  have h' := (h.append [returned (.findByClientId leg.mktId) found]).later (m := 5) (by omega)
  cases found with
  | some order =>
    refine Contract.stays_traced.mpr ⟨rfl, h'.market (h.pending hpending) (.found ?_)⟩
    exact List.mem_append_right w (List.mem_singleton_self _)
  | none =>
    dsimp only
    split
    · obtain ⟨run, material, hgated⟩ := hgated
      refine (submitOnce_reported _ ⟨run, material, hgated.append _⟩ h').bind ?_ ?_
      · rintro placed leg₁ w₁ - ⟨⟨rfl, hplaced⟩, h₁⟩
        have hmarket := h₁.market (h₁.pending hpending) (hplaced placed rfl)
        refine Act.meets_modify_bind.mpr ((note_drives placed hmarket).mono ?_)
        rintro x leg' w' - ⟨herror, -, -, h'⟩
        exact ⟨herror, h'.settled x⟩
      · rintro error leg₁ w₁ - ⟨⟨rfl, -⟩, h₁⟩
        exact ⟨rfl, h₁.failed error 5⟩
    · exact Contract.stays_traced.mpr ⟨rfl, h'.block 5⟩

theorem closeMarket_drives (h : Drives 5 t leg w) :
    (Leg.closeMarket : Steps K (Leg K) Unit).Meets (Contract.traced (Allowed e runId s₀)) leg (Ended 6 t leg) w := by
  refine Act.meets_get_bind.mpr ?_
  split
  · next mkt lim _ _ =>
    refine (note_drives mkt h).bind ?_ ?_
    · rintro u leg₁ w₁ - ⟨herror, -, -, h₁⟩
      refine (guardOverfill_drives leg.target (lim.filledQty.val + mkt.filledQty.val)
        (h₁.later (by omega) : Drives 6 t leg₁ w₁)).mono ?_
      rintro x leg₂ w₂ - ⟨rfl, h₂⟩
      exact ⟨herror, h₂⟩
    · rintro error leg₁ w₁ - ⟨herror, -, -, h₁⟩
      exact ⟨herror, h₁.failed error 6⟩
  · exact Contract.stays_traced.mpr ⟨rfl, h.failed _ 6⟩

/-- A re-read leaves the name as it was, up to the order that it waits for. -/
theorem awaitOne_drives {book : Book} (h : Drives n t leg w) (hwaiting : leg.waiting = true) :
    (awaitOne leg).Meets (Contract.traced (Allowed e runId s₀)) book
      (Act.post (fun leg' b w' => b = book ∧ leg'.error = leg.error ∧ Drives n t leg' w') fun _ _ => True) w := by
  unfold awaitOne
  rw [hwaiting]
  split
  · next current _ hcurrent =>
    refine meets_request_bind trivial (fun order => Contract.stays_traced.mpr ⟨rfl, ?_⟩) fun _ => trivial
    have h' := h.append [returned (.getOrder current.brokerOrderId) order]
    have hmem : returned (.getOrder current.brokerOrderId) order ∈ w ++ [returned (.getOrder current.brokerOrderId) order] :=
      List.mem_append_right w (List.mem_singleton_self _)
    unfold Leg.setCurrent
    unfold Leg.current at hcurrent
    split
    · next hsome =>
      obtain ⟨mkt, hmkt⟩ := Option.isSome_iff_exists.mp hsome
      rw [hmkt] at hcurrent
      obtain rfl := Option.some.inj hcurrent
      obtain ⟨hlim, hreported⟩ := h'.mkt mkt hmkt
      exact ⟨rfl, h'.market hlim (.read hreported hmem)⟩
    · next hnone =>
      rw [Option.not_isSome_iff_eq_none.mp hnone] at hcurrent
      exact ⟨rfl, h'.limit (.read (h'.lim current hcurrent) hmem) n⟩
  · exact Contract.stays_traced.mpr ⟨rfl, rfl, h⟩

end Names

/-! ### The book -/

def Marks : (desk K).Call → Prop
  | .request (.markExecuted _ _) => True
  | _ => False

/-- No run was marked so far. -/
def Unmarked (w : Trace K) : Prop := ∀ event ∈ w, ¬Marks event.call

theorem Unmarked.snoc {w : Trace K} (h : Unmarked w) {event : Event (desk K)} (hevent : ¬Marks event.call) :
    Unmarked (w ++ [event]) := fun event' hmem =>
  (List.mem_append.mp hmem).elim (h event') fun hmem => List.mem_singleton.mp hmem ▸ hevent

theorem Unmarked.returned {w : Trace K} (h : Unmarked w) (r : Request K) (v : r.Value)
    (hr : ¬Marks (.request r : (desk K).Call)) : Unmarked (w ++ [returned r v]) := h.snoc hr

/-- The run that was loaded may trade, an engaged switch is halted, and no run was marked yet. -/
structure Working (e : Stage K O Header) (runId : UUID) (run : RunRecord K) (material : CommitmentMaterial K) (s : Switch)
    (w : Trace K) : Prop where
  gated : Gated e runId run material w
  halts : Halt.Engaged w → s.trigger.halted = true
  unmarked : Unmarked w

theorem engaged_snoc {event : Event (desk K)} {w : Trace K} (h : ∀ trigger, event.call ≠ .engage trigger) :
    Halt.Engaged (w ++ [event]) ↔ Halt.Engaged w := by
  refine exists_congr fun trigger => ?_
  rw [List.mem_append, List.mem_singleton, or_iff_left_iff_imp]
  exact fun heq => absurd (congrArg Event.call heq).symm (h trigger)

section Working
variable [FloorRing K] {e : Stage K O Header} {runId : UUID} {s₀ s : Switch} {run : RunRecord K}
  {material : CommitmentMaterial K} {w : Trace K}

omit [FloorRing K] in
theorem Working.snoc (h : Working e runId run material s w) {event : Event (desk K)}
    (hevent : ∀ trigger, event.call ≠ .engage trigger) (hmarks : ¬Marks event.call) :
    Working e runId run material s (w ++ [event]) :=
  ⟨h.gated.append _, fun hengaged => h.halts ((engaged_snoc hevent).mp hengaged), h.unmarked.snoc hmarks⟩

omit [FloorRing K] in
theorem not_of_bookCall {c : (desk K).Call} (hc : BookCall c) : (∀ trigger, c ≠ .engage trigger) ∧ ¬Marks c := by
  unfold BookCall at hc
  split at hc
  all_goals simp_all [Marks]

omit [FloorRing K] in
theorem not_of_switchCall {c : (desk K).Call} (hc : Halt.SwitchCall c) : (∀ trigger, c ≠ .engage trigger) ∧ ¬Marks c := by
  unfold Halt.SwitchCall at hc
  split at hc
  all_goals simp_all [Marks]

theorem bookCall_keeps (c : (desk K).Call) (w : Trace K) (r : (desk K).Reply c) (w' : Trace K) (hc : BookCall c)
    (hans : (Contract.traced (Allowed e runId s₀)).answers c w r w') (h : Working e runId run material s w) :
    Working e runId run material s w' := by
  subst hans
  exact h.snoc (not_of_bookCall hc).1 (not_of_bookCall hc).2

theorem allowed_switch (c : (desk K).Call) (w : Trace K) (hc : Halt.SwitchCall c) : Allowed e runId s₀ c w := by
  unfold Halt.SwitchCall at hc
  split at hc
  all_goals trivial

/-- What only the switch decides, as long as no run is marked. -/
theorem stateRules {P : Switch → Prop} (hengage : ∀ s trigger, P s → P { s with trigger := s.trigger.halt trigger })
    (hflattened : ∀ s b, P s → P { s with flattened := b }) :
    Halt.SwitchRules (Contract.traced (Allowed e runId s₀)) fun s w => P s ∧ Unmarked w where
  stable _ := Contract.stable_traced
  call c _ w hc _ h := by
    refine ⟨allowed_switch c w hc, fun r w' hans => ?_⟩
    subst hans
    exact ⟨h.1, h.2.snoc (not_of_switchCall hc).2⟩
  engage trigger s w _ h := by
    refine ⟨trivial, fun r w' hans => ?_⟩
    subst hans
    exact ⟨hengage s trigger h.1, h.2.snoc fun h => h⟩
  flattened s _ b h := ⟨hflattened s b h.1, h.2⟩

theorem switchRules : Halt.SwitchRules (Contract.traced (Allowed e runId s₀)) (Working e runId run material) where
  stable _ := Contract.stable_traced
  call c _ w hc _ h := by
    refine ⟨allowed_switch c w hc, fun r w' hans => ?_⟩
    subst hans
    exact h.snoc (not_of_switchCall hc).1 (not_of_switchCall hc).2
  engage trigger s w _ h := by
    refine ⟨trivial, fun r w' hans => ?_⟩
    subst hans
    exact ⟨h.gated.append _, fun _ => KillSwitch.halted_halt s.trigger trigger, h.unmarked.snoc fun h => h⟩
  flattened _ _ _ h := ⟨h.gated, h.halts, h.unmarked⟩

theorem bookRules (o : Options K) : BookRules (Contract.traced (Allowed e runId s₀)) o (Working e runId run material)
    (fun n t leg _ => Drives n t leg) fun _ => True where
  stable s := Contract.stable_traced
  call s c w r w' hc hans h := bookCall_keeps c w r w' hc hans h
  kept n t leg b := kept_drives
  grows n t leg w h := h
  pause c w hc _ := by
    unfold Pauses at hc
    split at hc
    all_goals trivial
  resolve t leg b s w _ _ h _ := resolveReference_drives h
  resolved t leg b w h _ := h.later fun _ => le_rfl
  submit t leg b s w _ hs h _ _ := submitLimit_drives o s.trigger ⟨run, material, hs.gated⟩ h
  submitted t leg b w h hskip := by
    refine { h with opened := fun he => (h.opened he).imp_right fun h => h.imp_right fun h => ?_ }
    simp [h.2, Leg.live, he] at hskip
  cancel t leg b s w _ _ h _ := cancelLimit_drives h
  canceled t leg b w h _ := h.later (by omega)
  close t leg b s w _ _ h _ := closeLimit_drives h
  closed t leg b w h _ := h.later (by omega)
  market t leg b s w _ hs h _ hpending := submitMarket_drives s.trigger ⟨run, material, hs.gated⟩ h hpending
  marketed t leg b w h _ := h.later (by omega)
  settle t leg b s w _ _ h _ _ := closeMarket_drives h
  settled t leg b w h _ := h.later (by omega)
  wait n t leg book w _ _ _ h hwaiting := awaitOne_drives h hwaiting
  estable _ _ _ _ h := h

/-- A target that was looked up. -/
structure Found (t : ExecutionTarget K) (leg : Leg K) (w : Trace K) : Prop where
  target : leg.target = t
  lim : ∀ order ∈ leg.lim, Reported w leg.limId order
  mkt : leg.mkt = none
  pending : leg.residualPending = false

theorem init_found (t : ExecutionTarget K) (book : Book) :
    (Leg.init t : Steps K Book (Leg K)).Meets (Contract.traced (Allowed e runId s₀)) book
      (Act.post (fun leg b w' => b = book ∧ leg.error = none ∧ Found t leg w') fun _ _ => True) w := by
  refine meets_request_bind trivial (fun found => Contract.stays_traced.mpr ⟨rfl, rfl, rfl, ?_, rfl, rfl⟩) fun _ => trivial
  rintro order rfl
  exact .found (List.mem_append_right w (List.mem_singleton_self _))

omit [FloorRing K] in
theorem Found.opened {t : ExecutionTarget K} {leg : Leg K} (h : Found t leg w) (ks : KillSwitch) :
    Drives 0 t (leg.openForSubmit ks) w := by
  have hdrives (blocked toSubmit : Bool) (hopen : leg.lim.isSome ∨ blocked = true ∨ toSubmit = true) :
      Drives 0 t { leg with blocked := blocked, toSubmit := toSubmit } w := by
    refine ⟨h.target, h.lim, fun order ho => ?_, fun hp => ?_, fun _ => ?_⟩
    · change order ∈ leg.mkt at ho
      rw [h.mkt] at ho
      cases ho
    · exact absurd hp (by simp [h.pending])
    · exact hopen.imp_right fun h => h.imp_right fun h => ⟨by decide, h⟩
  unfold Leg.openForSubmit
  split
  · next hlim => exact hdrives leg.blocked leg.toSubmit (Or.inl hlim)
  · split
    · exact hdrives leg.blocked true (Or.inr (Or.inr rfl))
    · exact hdrives true leg.toSubmit (Or.inr (Or.inl rfl))

theorem kept_found (t : ExecutionTarget K) (leg : Leg K) : (Contract.traced (Allowed e runId s₀)).Kept (Found t leg) where
  stable _ _ hr _ h := hr ▸ h
  call c w r w' _ _ hans _ h := by
    subst hans
    exact { h with lim := fun order ho => (h.lim order ho).append _ }

/-- A book that ends leaves every name driven, without error. -/
theorem executeBook_meets (targets : List (ExecutionTarget K)) (h : Working e runId run material s w) :
    (executeBook e.options targets (some (gate e runId))).Meets (Contract.traced (Allowed e runId s₀)) s
      (Act.post (fun outcomes s' w' => Working e runId run material s' w' ∧ ∃ legs,
        List.Forall₂ (fun t leg => Drives 6 t leg w' ∧ leg.error = none) targets legs ∧ outcomes = legs.map Leg.outcome)
        fun _ _ => True) w := by
  have hgate : ∀ g ∈ some (gate e runId), ∀ s w, True → Working e runId run material s w →
      g.Meets (Contract.traced (Allowed e runId s₀)) s
        (Act.post (fun _ s' w' => Working e runId run material s' w') fun _ _ => True) w := by
    rintro g ⟨⟩ s w hw hs
    refine (keeps_gate e switchRules runId s w hw hs).mono ?_
    rintro (e | u) s' w' - h'
    · trivial
    · exact h'
  refine (bookRules e.options).executeBook kept_found ?_ (fun t leg _ s w _ h => h.opened s.trigger) hgate
    (fun _ => trivial) (fun _ _ _ _ _ => trivial) trivial h
  exact List.forall₂_same.mpr fun t _ book w _ => init_found t book

omit [FloorRing K] in
/-- A complete outcome that was not blocked is a filled target. -/
theorem Drives.filled {t : ExecutionTarget K} {leg : Leg K} (h : Drives 6 t leg w) (herror : leg.error = none)
    (hcomplete : leg.outcome.complete = true) (hunblocked : leg.outcome.blockedByKillSwitch = false) :
    Filled eps t w := by
  have hblocked : leg.blocked = false := hunblocked
  have hopened := h.opened herror
  rw [hblocked] at hopened
  obtain ⟨lim, hlim⟩ := Option.isSome_iff_exists.mp (hopened.resolve_right (by simp))
  have hreported := h.lim lim hlim
  have hqty := of_decide_eq_true hcomplete
  rw [Leg.limId, h.target] at hreported
  rw [hlim, h.target] at hqty
  refine ⟨lim, hreported, ?_⟩
  cases hmkt : leg.mkt with
  | none =>
    rw [hmkt] at hqty
    exact Or.inl (by simpa using hqty)
  | some mkt =>
    have hreported' := (h.mkt mkt hmkt).2
    rw [Leg.mktId, h.target] at hreported'
    rw [hmkt] at hqty
    exact Or.inr ⟨mkt, hreported', hqty⟩

end Working

/-! ### The plan -/

section Plan
variable [FloorRing K] {e : Stage K O Header} {runId : UUID} {s₀ s : Switch} {run : RunRecord K} {w : Trace K}

theorem planName_runId {book : ProposedBook K} {view : MarketView K} {equity : K} {positions : Dict String K}
    {name : SecurityId × String} {planned : Option (ExecutionTarget K)}
    (h : planName runId book view equity positions name = .ok planned) : ∀ t ∈ planned, t.runId = runId := by
  unfold planName at h
  extract_lets weight held at h
  split at h
  · split at h
    · cases h
    · cases h
      simp
  · extract_lets desired delta at h
    split at h
    · cases h
      simp
    · cases h
      simp

theorem planTargets_runId {book : ProposedBook K} {view : MarketView K} {equity : K} {positions : Dict String K}
    {targets : List (ExecutionTarget K)} (h : planTargets runId book view equity positions = .ok targets) :
    ∀ t ∈ targets, t.runId = runId := by
  unfold planTargets at h
  split at h
  · cases h
  · split at h
    · cases h
    · obtain ⟨planned, hplanned, htargets⟩ := Except.bind_eq_ok.mp h
      cases htargets
      intro t ht
      obtain ⟨found, hfound, hsome⟩ := List.mem_filterMap.mp ht
      obtain ⟨name, -, hname⟩ := Forall₂.exists_of_mem_right (Except.mapM_eq_ok.mp hplanned) hfound
      exact planName_runId hname t hsome

theorem existingTarget_meets (view : MarketView K) (name : SecurityId × String) :
    (existingTarget run view name).Meets (Contract.traced (Allowed e runId s₀)) s
      (Act.post (fun found s' _ => s' = s ∧ ∀ t ∈ found, t.runId = run.runId) fun _ _ => True) w := by
  refine meets_request_bind trivial (fun found => ?_) fun _ => trivial
  cases found with
  | none => exact Contract.stays_traced.mpr ⟨rfl, by simp⟩
  | some order =>
    refine meets_request_bind trivial (fun stored => Contract.stays_traced.mpr ⟨rfl, ?_⟩) fun _ => trivial
    rintro t ⟨⟩
    rfl

theorem marketView_meets : (marketView run : Steps K Switch _).Meets (Contract.traced (Allowed e runId s₀)) s
    (Act.post (fun _ s' _ => s' = s) fun _ _ => True) w := by
  refine meets_request_bind trivial (fun positions => ?_) fun _ => trivial
  refine meets_request_bind trivial (fun rows => ?_) fun _ => trivial
  dsimp only
  split
  · exact Contract.stays_traced.mpr trivial
  · split
    · exact Contract.stays_traced.mpr trivial
    · exact Contract.stays_traced.mpr rfl

/-- The targets of a run carry its id, and planning leaves the switch. -/
theorem targets_meets (book : ProposedBook K) :
    (ExecutionStage.targets run book).Meets (Contract.traced (Allowed e runId s₀)) s
      (Act.post (fun ts s' _ => s' = s ∧ ∀ t ∈ ts, t.runId = run.runId) fun _ _ => True) w := by
  refine marketView_meets.bind ?_ fun _ _ _ _ _ => trivial
  rintro view s' w₁ - rfl
  have hexisting : (view.symbols.entries.mapM (existingTarget run view)).Meets (Contract.traced (Allowed e runId s₀)) s'
      (Act.post (fun found s'' _ => s'' = s' ∧ List.Forall₂ (fun _ found => ∀ t ∈ found, t.runId = run.runId)
        view.symbols.entries found) fun _ _ => True) w₁ :=
    Act.Meets.mapM_fixed (fun _ _ => ⟨Contract.stable_traced, fun _ _ _ _ _ _ _ _ h => h⟩)
      (fun name w _ => existingTarget_meets view name) view.symbols.entries trivial
  refine hexisting.bind ?_ fun _ _ _ _ _ => trivial
  rintro existing s'' w₂ - ⟨rfl, hfound⟩
  refine meets_request_bind trivial (fun equity => ?_) fun _ => trivial
  refine meets_request_bind trivial (fun positions => ?_) fun _ => trivial
  cases hplanned : planTargets run.runId book view equity.1 positions with
  | error error => exact Contract.stays_traced.mpr trivial
  | ok planned =>
    refine Contract.stays_traced.mpr ⟨rfl, fun t ht => ?_⟩
    rw [List.mem_insertionSort, List.mem_append] at ht
    rcases ht with ht | ht
    · obtain ⟨found, hmem, hsome⟩ := List.mem_filterMap.mp ht
      obtain ⟨name, -, hname⟩ := Forall₂.exists_of_mem_right hfound hmem
      exact hname t hsome
    · exact planTargets_runId hplanned t (List.mem_of_mem_filter ht)

/-- The calls of the planning and of what follows a book, besides the marking. -/
def Quiet : (desk K).Call → Prop
  | .request .positions | .request (.marketRows _) | .request (.findByClientId _) | .request (.findExecution _)
  | .request .accountEquity | .request (.loadRun _) | .request (.recordDlq _ _ _) | .clock => True
  | _ => False

omit [FloorRing K] in
theorem not_quiet_engage (trigger : KillTrigger) : ¬Quiet (.engage trigger : (desk K).Call) := fun h => h

omit [FloorRing K] in
theorem not_marks_of_quiet {c : (desk K).Call} (hc : Quiet c) : ¬Marks c := by
  unfold Quiet at hc
  split at hc
  all_goals simp_all [Marks]

omit [FloorRing K] in
theorem uses_existingTarget (view : MarketView K) (name : SecurityId × String) :
    (existingTarget run view name : Steps K Switch _).Uses Quiet := by
  refine (uses_request trivial).bind fun found => ?_
  split
  · exact Act.uses_pure
  · exact (uses_request trivial).bind fun _ => Act.uses_pure

theorem uses_targets (book : ProposedBook K) : (ExecutionStage.targets run book : Steps K Switch _).Uses Quiet := by
  have hview : (marketView run : Steps K Switch _).Uses Quiet := by
    refine (uses_request trivial).bind fun positions => (uses_request trivial).bind fun rows => ?_
    dsimp only
    split
    · exact Act.uses_throw
    · split
      · exact Act.uses_throw
      · exact Act.uses_pure
  refine hview.bind fun view => (Act.Uses.mapM (uses_existingTarget view) _).bind fun existing => ?_
  refine (uses_request trivial).bind fun equity => (uses_request trivial).bind fun positions => ?_
  exact (uses_orRaise _).bind fun planned => Act.uses_pure

end Plan

/-! ### The run -/

section Run
variable [FloorRing K] {e : Stage K O Header} {runId : UUID} {s₀ s : Switch} {run : RunRecord K}
  {material : CommitmentMaterial K} {w w' : Trace K}

omit [FloorRing K] in
theorem Unmarked.grew (h : Unmarked w) (hgrew : Grew Quiet w w') : Unmarked w' :=
  hgrew.forall_not h fun _ hmarks hquiet => not_marks_of_quiet hquiet hmarks

omit [FloorRing K] in
theorem Working.grew (h : Working e runId run material s w) (hgrew : Grew Quiet w w') :
    Working e runId run material s w' := by
  have hunmarked := h.unmarked.grew hgrew
  have hengaged : Halt.Engaged w' → Halt.Engaged w := by
    rintro ⟨trigger, hmem⟩
    exact ⟨trigger, (hgrew.mem_iff _ (not_quiet_engage trigger)).mp hmem⟩
  obtain ⟨evs, rfl, -⟩ := hgrew
  exact ⟨h.gated.append evs, fun he => h.halts (hengaged he), hunmarked⟩

/-- Steps that are only quiet may be taken anywhere. -/
theorem quiet_meets {α : Type} {m : Steps K Switch α} (hu : m.Uses Quiet) :
    m.Meets (Contract.traced (Allowed e runId s₀)) s (fun _ _ w' => Grew Quiet w w') w := by
  refine (Act.Uses.grows hu (Q := fun _ _ _ => True) ?_).mono fun _ _ _ _ h => h.2
  refine Program.Meets.mono (Program.Uses.meets (hu s) (P := fun _ => True) (fun _ _ _ _ h => h) ?_ trivial)
    fun _ _ _ h => h
  intro c w hc _ _
  refine ⟨?_, fun _ _ _ => trivial⟩
  unfold Quiet at hc
  split at hc
  all_goals trivial

/-- What a result reports: a status that was loaded, or that is not EXECUTED, while no run was marked; or EXECUTED, right
    after the run was marked. -/
def Reports (runId : UUID) (result : ExecutionResult K) (w : Trace K) : Prop :=
  Unmarked w ∧ (result.status ≠ .executed ∨
    ∃ run, returned (.loadRun runId) (some run) ∈ w ∧ run.status = result.status) ∨
  ∃ before endedAt advanced, w = before ++ [returned (.markExecuted runId endedAt) advanced] ∧ Unmarked before ∧
    result.status = .executed

theorem haltedResult_meets (outcomes : List (Outcome K)) (h : Unmarked w) :
    (haltedResult runId outcomes).Meets (Contract.traced (Allowed e runId s₀)) s
      (Act.post (fun result _ w' => Reports runId result w') fun _ _ => True) w := by
  refine Act.meets_get_bind.mpr (meets_request_bind trivial (fun now => Contract.stays_traced.mpr (Or.inl ?_)) fun _ => trivial)
  refine ⟨h.snoc fun h => h, ?_⟩
  cases now with
  | none => exact Or.inl RunStatus.noConfusion
  | some run => exact Or.inr ⟨run, List.mem_append_right w (List.mem_singleton_self _), rfl⟩

/-- What is known when a book has ended. -/
structure Finished (e : Stage K O Header) (runId : UUID) (run : RunRecord K) (material : CommitmentMaterial K)
    (s₀ s : Switch) (targets : List (ExecutionTarget K)) (outcomes : List (Outcome K)) (w : Trace K) : Prop where
  working : Working e runId run material s w
  drove : Drove e runId run material s₀ targets outcomes w
  named : ∀ t ∈ targets, t.runId = run.runId
  driven : ∃ legs, List.Forall₂ (fun t leg => Drives 6 t leg w ∧ leg.error = none) targets legs ∧
    outcomes = legs.map Leg.outcome

/-- Complete outcomes, evidence of every limit order and an idle switch: the run is complete. -/
theorem Finished.complete {targets : List (ExecutionTarget K)} {outcomes : List (Outcome K)}
    (h : Finished e runId run material s₀ s targets outcomes w) (hrun : run.runId = runId)
    (hidle : s.trigger.halted = false)
    (hall : (outcomes.all fun o => o.complete && !o.blockedByKillSwitch) = true) (evs : Trace K)
    (hengaged : Halt.Engaged (w ++ evs) → Halt.Engaged w)
    (hevidence : ∀ t ∈ targets, ∃ stored,
      returned (.findExecution (clientOrderId runId t.securityId "lim")) (some stored) ∈ w ++ evs) :
    Complete e runId run material s₀ eps (w ++ evs) := by
  refine ⟨⟨targets, outcomes, h.drove.append evs, ?_⟩, fun he => ?_⟩
  · obtain ⟨legs, hlegs, rfl⟩ := h.driven
    have houtcomes : ∀ leg ∈ legs, leg.outcome.complete = true ∧ leg.outcome.blockedByKillSwitch = false := by
      intro leg hleg
      have hleg := List.all_eq_true.mp hall _ (List.mem_map_of_mem hleg)
      simpa using hleg
    have htargets : ∀ t ∈ targets, Evidenced t (w ++ evs) := by
      intro t ht
      obtain ⟨stored, hstored⟩ := hevidence t ht
      refine ⟨stored, ?_⟩
      rwa [h.named t ht, hrun]
    have hboth := (List.forall₂_and_left _ _).mpr ⟨htargets, ((List.forall₂_and_left _ _).mpr ⟨houtcomes, hlegs.flip⟩).flip⟩
    refine List.forall₂_map_right_iff.mpr (hboth.imp ?_)
    rintro t leg ⟨hstored, ⟨hcomplete, hunblocked⟩, hdrives, herror⟩
    exact ⟨hunblocked, (hdrives.filled herror hcomplete hunblocked).append evs, hstored⟩
  · have hhalted := h.working.halts (hengaged he)
    rw [hidle] at hhalted
    cases hhalted

theorem advance_meets {targets : List (ExecutionTarget K)} {outcomes : List (Outcome K)}
    (h : Finished e runId run material s₀ s targets outcomes w) (hidle : s.trigger.halted = false)
    (hall : (outcomes.all fun o => o.complete && !o.blockedByKillSwitch) = true) :
    (advance runId targets outcomes).Meets (Contract.traced (Allowed e runId s₀)) s
      (Act.post (fun result _ w' => Reports runId result w') fun _ _ => True) w := by
  have hread : (targets.mapM fun t => request (.findExecution (clientOrderId runId t.securityId "lim"))).Meets
      (Contract.traced (Allowed e runId s₀)) s (Act.post (fun stored s' w' => s' = s ∧ List.Forall₂ (fun t found =>
        returned (.findExecution (clientOrderId runId t.securityId "lim")) found ∈ w') targets stored)
        fun _ _ => True) w := by
    refine Act.Meets.mapM_fixed (fun t found => ⟨Contract.stable_traced, ?_⟩) (fun t w _ => ?_) targets trivial
    · intro c w r w' _ _ hans _ hmem
      subst hans
      exact List.mem_append_left _ hmem
    · exact meets_request trivial (fun found => ⟨rfl, List.mem_append_right w (List.mem_singleton_self _)⟩) fun _ => trivial
  have huse : (targets.mapM fun t => request (.findExecution (clientOrderId runId t.securityId "lim")) :
      Steps K Switch _).Uses Quiet := by
    refine Act.Uses.mapM (fun t => ?_) targets
    exact uses_request trivial
  refine (huse.grows hread).bind ?_ fun _ _ _ _ _ => trivial
  rintro stored s' w₁ - ⟨⟨rfl, hstored⟩, hgrew⟩
  split
  · exact Contract.stays_traced.mpr trivial
  · next hnone =>
    refine meets_clock_bind trivial fun now => ?_
    have hgrew' := hgrew.snoc (e := (⟨.clock, now⟩ : Event (desk K))) trivial
    have hunmarked := h.working.unmarked.grew hgrew'
    refine meets_request_bind ?_
      (fun advanced => Contract.stays_traced.mpr (Or.inr ⟨_, now, advanced, rfl, hunmarked, rfl⟩)) fun _ => trivial
    obtain ⟨evs, heq, -⟩ := id hgrew'
    rw [heq] at hgrew' ⊢
    refine ⟨rfl, run, material, h.working.gated.append evs, fun hrun => h.complete hrun hidle hall evs ?_ fun t ht => ?_⟩
    · rintro ⟨trigger, hmem⟩
      exact ⟨trigger, (hgrew'.mem_iff _ (not_quiet_engage trigger)).mp hmem⟩
    · obtain ⟨found, hmem, hfound⟩ := Forall₂.exists_of_mem_left hstored ht
      cases found with
      | none => exact absurd (List.any_eq_true.mpr ⟨none, hmem, rfl⟩) hnone
      | some record =>
        rw [← heq]
        exact ⟨record, List.mem_append_left _ hfound⟩

theorem finish_meets {targets : List (ExecutionTarget K)} {outcomes : List (Outcome K)}
    (h : Finished e runId run material s₀ s targets outcomes w) :
    (finish runId targets outcomes).Meets (Contract.traced (Allowed e runId s₀)) s
      (Act.post (fun result _ w' => Reports runId result w') fun _ _ => True) w := by
  refine Act.meets_get_bind.mpr ?_
  split
  · exact haltedResult_meets outcomes h.working.unmarked
  · next hidle =>
    split
    · next hall => exact advance_meets h (Bool.eq_false_iff.mpr hidle) hall
    · exact Contract.stays_traced.mpr (Or.inl ⟨h.working.unmarked, Or.inl RunStatus.noConfusion⟩)

end Run

/-! ### Admission -/

section Admission
variable {e : Stage K O Header} {runId : UUID} {s₀ s : Switch} {run : RunRecord K} {material : CommitmentMaterial K}
  {w w' : Trace K}

theorem verifyMaterial_eq_ok {sha256 : String → Sha256Hex} {F : Json.FloatText K} {sha : Sha256Hex}
    (h : verifyMaterial sha256 F material = .ok sha) :
    sha = material.storedSha256 ∧
    commitmentHash sha256 F material.run material.decisions material.snapshot = .ok material.storedSha256 ∧
    ∀ anchor ∈ material.anchor, anchor.sha256 = material.storedSha256 := by
  unfold verifyMaterial at h
  split at h
  · cases h
  · next recomputed hverify =>
    unfold verifyCommitment at hverify
    split at hverify
    · cases hverify
    · next recomputed' hhash =>
      split at hverify
      · cases hverify
      · next hstored =>
        obtain rfl := Except.ok.inj hverify
        have hstored := not_not.mp hstored
        split at h
        · cases h
        · next hmatch =>
          obtain rfl := Except.ok.inj h
          subst hstored
          refine ⟨rfl, hhash, fun anchor hanchor => ?_⟩
          rw [Option.mem_def] at hanchor
          simpa [hanchor] using hmatch

/-- The stored rows recompute to the committed hash and a full anchor binds it. -/
theorem integrity_sound (h : integrity e material = true) :
    commitmentHash e.sha256 e.floatText material.run material.decisions material.snapshot = .ok material.storedSha256 ∧
    ∃ anchor proof commit, material.anchor = some anchor ∧ anchor.sha256 = material.storedSha256 ∧
      anchor.otsProof = some proof ∧ anchor.gitCommit = some commit ∧ Binds e.ots proof material.storedSha256 := by
  unfold integrity at h
  split at h
  · cases h
  · next sha hverify =>
    obtain ⟨rfl, hhash, hmatch⟩ := verifyMaterial_eq_ok hverify
    refine ⟨hhash, ?_⟩
    split at h
    · cases h
    · next anchor hanchor =>
      split at h
      · next proof commit hproof hcommit =>
        split at h
        · cases h
        · next status hbinding =>
          obtain ⟨file, hfile⟩ := loads_of_checkBinding hbinding
          exact ⟨anchor, proof, commit, hanchor, hmatch anchor hanchor, hproof, hcommit, file, hfile,
            Scorable.bound_of_checkBinding hbinding hfile⟩
      · cases h

section Eligible
variable [FloorRing K]

theorem committedBook_meets : (committedBook e run runId material : Steps K Switch _).Meets
    (Contract.traced (Allowed e runId s₀)) s (Act.post (fun snapshot s' w' => s' = s ∧ w' = w ∧
      snapshot = material.snapshot ∧ integrity e material = true ∧ snapshot.runId = runId ∧ snapshot.book.runId = runId ∧
      (snapshot.book.positions ≠ [] → snapshot.cio.isSome)) fun _ _ => True) w := by
  unfold committedBook
  split
  · next hintegrity =>
    dsimp only
    split
    · exact Contract.stays_traced.mpr trivial
    · next hown =>
      split
      · exact Contract.stays_traced.mpr trivial
      · next hcio =>
        obtain ⟨hsnapshot, hbook⟩ := not_or.mp hown
        refine Contract.stays_traced.mpr ⟨rfl, rfl, rfl, hintegrity, not_not.mp hsnapshot, not_not.mp hbook, fun hp => ?_⟩
        rw [← Option.not_isNone, Bool.not_eq_true']
        exact Bool.eq_false_iff.mpr fun hnone => hcio ⟨hp, hnone⟩
  · have hletter : (deadLetter run .integrity : Steps K Switch Unit).Uses Quiet :=
      (uses_request trivial).tryCatch fun _ => Act.uses_pure
    exact (quiet_meets hletter).bind (fun _ _ _ _ _ => Contract.stays_traced.mpr trivial) fun _ _ _ _ _ => trivial

/-- What is admitted was loaded, and may trade if it is anchored and no halt is stored. -/
theorem eligible_meets (found : Option (RunRecord K)) :
    (eligible e runId found).Meets (Contract.traced (Allowed e runId s₀)) s (Act.post (fun admitted s' w' => s' = s ∧
      found = some admitted.1 ∧ (admitted.1.status = .anchored ∨ admitted.1.status = .executed) ∧ ∃ material, admitted.2 = material.snapshot ∧
        w' = w ++ [returned (.loadCommitmentMaterial runId) (some material)] ∧
        ∀ w'', admitted.1.status = .anchored → [returned (.loadRun runId) (some admitted.1),
          returned (.loadCommitmentMaterial runId) (some material), returned (.loadKillSwitchEvents runId) []] <+: w'' →
          Gated e runId admitted.1 material w'') fun _ _ => True) w := by
  cases found with
  | none => exact Contract.stays_traced.mpr trivial
  | some run =>
    unfold eligible
    dsimp only
    split
    · exact Contract.stays_traced.mpr trivial
    · next hstatus =>
      refine meets_request_bind trivial (fun loaded => ?_) fun _ => trivial
      cases loaded with
      | none => exact Contract.stays_traced.mpr trivial
      | some material =>
        refine committedBook_meets.bind ?_ fun _ _ _ _ _ => trivial
        rintro snapshot s' w' - ⟨rfl, rfl, rfl, hintegrity, hsnapshot, hbook, hcio⟩
        obtain ⟨hhash, hanchor⟩ := integrity_sound hintegrity
        have hlive : run.mode = .live := not_not.mp (not_or.mp hstatus).1
        have hloaded : run.status = .anchored ∨ run.status = .executed := by
          have hmem := not_not.mp (not_or.mp hstatus).2
          simpa using hmem
        exact Contract.stays_traced.mpr ⟨rfl, rfl, hloaded, material, rfl, rfl, fun w'' hanchored hbegan =>
          ⟨hbegan, hlive, hanchored, hhash, hanchor, ⟨hsnapshot, hbook⟩, hcio⟩⟩

end Eligible

end Admission

/-! ### The whole run -/

section Whole
variable [FloorRing K] {e : Stage K O Header} {runId : UUID} {s₀ s : Switch} {run : RunRecord K}
  {material : CommitmentMaterial K} {w : Trace K}

omit [FloorRing K] in
theorem unmarked_loads : Unmarked [returned (.loadRun runId) (some run),
    returned (.loadCommitmentMaterial runId) (some material)] := by
  intro event hmem
  simp only [List.mem_cons, List.not_mem_nil, or_false] at hmem
  rcases hmem with rfl | rfl
  · exact fun h => h
  · exact fun h => h

theorem haltController_meets (id : UUID) : (haltController id : Steps K Switch Unit).Meets (Contract.traced (Allowed e runId s₀)) s
    (Act.post (fun _ s' w' => ∃ events, s' = ⟨KillSwitch.fromEvents events, KillSwitch.wasFlattened events⟩ ∧
      w' = w ++ [returned (.loadKillSwitchEvents id) events]) fun _ _ => True) w :=
  meets_request_bind trivial (fun events => Contract.stays_traced.mpr ⟨events, rfl, rfl⟩) fun _ => trivial

/-- The kill switch before trading: it stays engaged, or the run may trade. -/
theorem preflight_meets (hgated : ∀ w, [returned (.loadRun runId) (some run),
      returned (.loadCommitmentMaterial runId) (some material), returned (.loadKillSwitchEvents runId) []] <+: w →
      Gated e runId run material w)
    (hw : w = [returned (.loadRun runId) (some run), returned (.loadCommitmentMaterial runId) (some material)]) :
    (preflight e runId).Meets (Contract.traced (Allowed e runId s₀)) s
      (Act.post (fun _ s' w' => s'.trigger.halted = true ∧ Unmarked w' ∨ Working e runId run material s' w')
        fun _ _ => True) w := by
  have hunmarked : Unmarked w := hw ▸ unmarked_loads
  refine (haltController_meets _).bind ?_ fun _ _ _ _ _ => trivial
  rintro u s₁ w₁ - ⟨events, rfl, rfl⟩
  refine Act.meets_get_bind.mpr ?_
  split
  · next hhalted =>
    have hrules : Halt.SwitchRules (Contract.traced (Allowed e runId s₀)) fun s w => s.trigger.halted = true ∧ Unmarked w :=
      stateRules (P := fun s => s.trigger.halted = true) (fun s trigger _ => KillSwitch.halted_halt s.trigger trigger)
        fun _ _ h => h
    refine (keeps_settle e hrules.halting runId _ _ trivial ⟨hhalted, hunmarked.returned (.loadKillSwitchEvents runId) events fun h => h⟩).mono ?_
    rintro (error | u) s' w' - hx
    · trivial
    · exact Or.inl hx
  · next hidle =>
    obtain rfl : events = [] := not_not.mp fun hne => hidle ((KillSwitch.halted_fromEvents events).mpr hne)
    have hworking : Working e runId run material ⟨KillSwitch.fromEvents ([] : List (KillSwitchEvent K)),
        KillSwitch.wasFlattened ([] : List (KillSwitchEvent K))⟩ (w ++ [returned (.loadKillSwitchEvents runId) []]) := by
      subst hw
      refine ⟨hgated _ List.prefix_rfl, ?_, unmarked_loads.returned (.loadKillSwitchEvents runId) [] fun h => h⟩
      rintro ⟨trigger, hmem⟩
      simp [returned] at hmem
    refine (keeps_checkTriggers e switchRules.halting runId _ _ trivial hworking).mono ?_
    rintro (error | u) s' w' - hx
    · trivial
    · exact Or.inr hx

theorem executeTargets_meets {targets : List (ExecutionTarget K)} (h : Working e runId run material s w) :
    (executeTargets e runId run targets).Meets (Contract.traced (Allowed e runId s₀)) s
      (Act.post (fun outcomes s' w' => (Working e runId run material s' w' ∧ ∃ legs,
        List.Forall₂ (fun t leg => Drives 6 t leg w' ∧ leg.error = none) targets legs ∧ outcomes = legs.map Leg.outcome) ∧
        ∃ trade, w' = w ++ trade ∧ ((executeBook e.options targets (some (gate e runId))).start s).Runs trade
          (.done (.ok outcomes, s'))) fun _ _ => True) w := by
  refine (executeBook_meets targets h).ran.tryCatch (fun _ _ _ _ hx => hx) fun error s' w' _ _ => ?_
  have hletter : (deadLetter run error : Steps K Switch Unit).Uses Quiet :=
    (uses_request trivial).tryCatch fun _ => Act.uses_pure
  exact (quiet_meets hletter).bind (fun _ _ _ _ _ => Contract.stays_traced.mpr trivial) fun _ _ _ _ _ => trivial

theorem executeEligible_meets (hgated : ∀ w, run.status = .anchored → [returned (.loadRun runId) (some run),
      returned (.loadCommitmentMaterial runId) (some material), returned (.loadKillSwitchEvents runId) []] <+: w →
      Gated e runId run material w)
    (hstatus : run.status = .anchored ∨ run.status = .executed)
    (hw : w = [returned (.loadRun runId) (some run), returned (.loadCommitmentMaterial runId) (some material)]) :
    (executeEligible e runId run material.snapshot).Meets (Contract.traced (Allowed e runId s)) s
      (Act.post (fun result _ w' => Reports runId result w') fun _ _ => True) w := by
  unfold executeEligible
  split
  · next hexecuted =>
    subst hw
    refine Contract.stays_traced.mpr (Or.inl ⟨unmarked_loads, Or.inr ⟨run, List.mem_cons_self, hexecuted⟩⟩)
  · next hunexecuted =>
    have hanchored := hstatus.resolve_right hunexecuted
    refine (preflight_meets (fun w => hgated w hanchored) hw).ran.bind ?_ fun _ _ _ _ _ => trivial
    rintro u s₁ w₁ - ⟨hpreflight, opening, rfl, hopening⟩
    refine Act.meets_get_bind.mpr ?_
    split
    · next hhalted => exact haltedResult_meets [] (hpreflight.elim And.right Working.unmarked)
    · next hidle =>
      have hworking := hpreflight.resolve_left fun h => hidle h.1
      refine ((uses_targets material.snapshot.book).grows (targets_meets material.snapshot.book)).ran.bind ?_
        fun _ _ _ _ _ => trivial
      rintro targets s₂ w₂ - ⟨⟨⟨rfl, hnamed⟩, hgrew⟩, plan, rfl, hplan⟩
      refine (executeTargets_meets (hworking.grew hgrew)).bind ?_ fun _ _ _ _ _ => trivial
      rintro outcomes s₃ w₃ - ⟨⟨hworking₃, hdriven⟩, trade, rfl, htrade⟩
      refine finish_meets ⟨hworking₃, ⟨s₂, s₃, opening, plan, trade, [], ?_, hopening, hplan, htrade⟩, hnamed, hdriven⟩
      simp [hw]

/-- A run that a halt stopped reports the status it was loaded with. -/
theorem settleHalted_meets (hhalted : halted run = true) (h : Unmarked w) :
    (settleHalted e run).Meets (Contract.traced (Allowed e runId s₀)) s
      (Act.post (fun result _ w' => Reports runId result w') fun _ _ => True) w := by
  have hrules : Halt.SwitchRules (Contract.traced (Allowed e runId s₀)) fun _ w => True ∧ Unmarked w :=
    stateRules (P := fun _ => True) (fun _ _ h => h) fun _ _ h => h
  refine (haltController_meets _).bind ?_ fun _ _ _ _ _ => trivial
  rintro u s₁ w₁ - ⟨events, rfl, rfl⟩
  refine (keeps_settle e hrules.halting run.runId _ _ trivial ⟨trivial, h.returned (.loadKillSwitchEvents run.runId) events fun h => h⟩).bind ?_ fun _ _ _ _ _ => trivial
  rintro u s₂ w₂ - ⟨-, h₂⟩
  refine Contract.stays_traced.mpr (Or.inl ⟨h₂, Or.inl ?_⟩)
  rw [halted, Bool.and_eq_true, decide_eq_true_iff] at hhalted
  rw [hhalted.1]
  exact RunStatus.noConfusion

/-- Every order that a run submits, the marking of the run and its result are as promised. -/
theorem executeRun_meets : (executeRun e runId).Meets (Contract.traced (Allowed e runId s)) s
    (Act.post (fun result _ w' => Reports runId result w') fun _ _ => True) [] := by
  refine meets_request_bind trivial (fun found => ?_) fun _ => trivial
  split
  · next run hrun =>
    refine settleHalted_meets (Option.mem_filter_iff.mp hrun).2 fun event hmem => ?_
    obtain rfl := List.mem_singleton.mp hmem
    exact fun h => h
  · refine (eligible_meets found).bind ?_ fun _ _ _ _ _ => trivial
    rintro ⟨run, snapshot⟩ s' w' - ⟨rfl, rfl, hstatus, material, rfl, rfl, hgated⟩
    exact executeEligible_meets hgated hstatus rfl

/-- An order is only submitted after the run was loaded live and anchored, its rows recomputed to the committed hash, its
    full anchor bound that hash, a book with positions had a CIO decision and no halt event was stored; and the run is only
    marked executed once every target is filled up to the executor's tolerance, none was blocked, the switch was never
    engaged and the record of every limit order was read back. -/
theorem execution_gated (e : Stage K O Header) (runId : UUID) (s : Switch) (evs : Trace K)
    (q : Program (desk K) (Except ExecError (ExecutionResult K) × Switch))
    (hruns : ((executeRun e runId).start s).Runs evs q)
    (hstore : ∀ run, returned (.loadRun runId) (some run) ∈ evs → run.runId = runId) :
    (∀ before order reply after, evs = before ++ ⟨.request (.submit order), reply⟩ :: after →
      ∃ run material, Gated e runId run material before) ∧
    ∀ before id endedAt reply after, evs = before ++ ⟨.request (.markExecuted id endedAt), reply⟩ :: after →
      id = runId ∧ ∃ run material, Gated e runId run material before ∧ Complete e runId run material s eps before := by
  refine ⟨fun before order reply after hevs => ?_, fun before id endedAt reply after hevs => ?_⟩
  · exact executeRun_meets.allowed_of_runs (hevs ▸ hruns)
  · obtain ⟨hid, run, material, hgated, hcomplete⟩ := executeRun_meets.allowed_of_runs (hevs ▸ hruns)
    refine ⟨hid, run, material, hgated, hcomplete (hstore run ?_)⟩
    rw [hevs]
    exact List.mem_append_left _ (hgated.began.subset List.mem_cons_self)

end Whole

/-! ### A sale -/

/-- What is left of the sale when the broker is done with it. -/
structure Sale where
  placed : Bool
  records : List (ExecutionRecord ℚ)

def soldOrder (filled : NonNegative ℚ) : BrokerOrder ℚ where
  brokerOrderId := Halt.firstId
  clientOrderId := ⟨"00000000-0000-0000-0000-000000000001-1-lim", Samples.label_limit⟩
  symbol := ⟨"AAA", Samples.label_aaa⟩
  side := .sell
  kind := .limit
  qty := ⟨100, Samples.hundred_positive ℚ⟩
  filledQty := filled
  limitPrice := some ⟨10, Samples.ten_positive ℚ⟩
  filledAvgPrice := some ⟨10, Samples.ten_positive ℚ⟩
  status := .canceled
  submittedAt := ⟨0, 0⟩
  filledAt := none

def saleMaterial : CommitmentMaterial ℚ where
  run := Sink.runAt .committed
  decisions := []
  snapshot := cashSnapshot
  storedSha256 := Sink.zeroHex
  committedAt := ⟨0, 0⟩
  anchor := some { AnchorStage.leafAnchor [.bitcoin 100] none with gitCommit := some ⟨"0", Samples.label_zero⟩ }

/-- Run 1 holds 100 shares and its book is cash; the broker fills so much of the sale and cancels the rest. -/
def saleAnswer (filled : NonNegative ℚ) : (c : DeskCall ℚ) → Sale → c.Reply × Sale
  | .request (.loadRun _), w => (.ok (some (Sink.runAt .anchored)), w)
  | .request (.loadCommitmentMaterial _), w => (.ok (some saleMaterial), w)
  | .request (.loadKillSwitchEvents _), w => (.ok [], w)
  | .request .feeds, w => (.ok fun _ => none, w)
  | .request .accountEquity, w => (.ok (1000, 1000), w)
  | .request .equityHistory, w => (.ok [1000], w)
  | .request .positions, w => (.ok ⟨[("AAA", 100)], by decide⟩, w)
  | .request (.marketRows _), w =>
    (.ok ⟨⟨[(⟨1, Samples.one_securityId⟩, "AAA")], by decide⟩, ⟨[("AAA", ⟨1, Samples.one_securityId⟩)], by decide⟩, fun _ => some 10⟩, w)
  | .request (.reference _), w => (.ok (10, .iexMid), w)
  | .request (.findByClientId id), w =>
    (.ok (if w.placed && id = (soldOrder filled).clientOrderId.val then some (soldOrder filled) else none), w)
  | .request (.submit _), w => (.ok (soldOrder filled), { w with placed := true })
  | .request (.findExecution id), w => (.ok (w.records.find? fun r => r.clientOrderId.val = id), w)
  | .request (.recordExecutions records), w => (.ok (), { w with records := records ++ w.records })
  | .request (.markExecuted _ _), w => (.ok true, w)
  | .request _, w => (.error .other, w)
  | .clock, w => (⟨0, 0⟩, w)
  | .sleep _, w => ((), w)
  | .engage _, w => ((), w)

def saleStage : Stage ℚ String OpenTimestamps.Bytes where
  sha256 _ := Sink.zeroHex
  floatText := decimalText
  ots := leafPackage
  limits := ⟨1, []⟩
  options := ⟨0, 0, 1000000, 2⟩

def idle : Switch := ⟨none, false⟩

/-- What happens when run 1 is executed. -/
def saleTrace (filled : NonNegative ℚ) : Trace ℚ :=
  ((executeRun saleStage ⟨1⟩).start idle).trace (saleAnswer filled) ⟨false, []⟩

section Sale
variable {filled : NonNegative ℚ}

theorem runs_sale (filled : NonNegative ℚ) : ((executeRun saleStage ⟨1⟩).start idle).Runs (saleTrace filled)
    (.done (((executeRun saleStage ⟨1⟩).start idle).exec (saleAnswer filled) ⟨false, []⟩).1) := Program.runs_trace _ _ _

theorem sale_answered {event : Event (desk ℚ)} (h : event ∈ saleTrace filled) :
    ∃ w, event.reply = (saleAnswer filled event.call w).1 := by
  unfold saleTrace at h
  exact Program.mem_trace (I := desk ℚ) (W := Sale) (saleAnswer filled) h

theorem sale_loads (run : RunRecord ℚ) (h : returned (.loadRun ⟨1⟩) (some run) ∈ saleTrace filled) : run.runId = ⟨1⟩ := by
  obtain ⟨w, hreply⟩ := sale_answered h
  obtain rfl := Option.some.inj (Except.ok.inj hreply)
  rfl

/-- Only the one order is reported. -/
theorem sale_reported {w : Trace ℚ} (hw : w ⊆ saleTrace filled) {cid : String} {order : BrokerOrder ℚ}
    (h : Reported w cid order) : order = soldOrder filled := by
  cases h with
  | found h =>
    obtain ⟨w', hreply⟩ := sale_answered (hw h)
    have hfound := Except.ok.inj hreply
    split at hfound
    · exact Option.some.inj hfound
    · cases hfound
  | placed hid h =>
    obtain ⟨w', hreply⟩ := sale_answered (hw h)
    exact Except.ok.inj hreply
  | read hr h =>
    obtain ⟨w', hreply⟩ := sale_answered (hw h)
    cases hreply

end Sale

/-- All of the 100 shares are sold. -/
def wholeSale : NonNegative ℚ := ⟨100, by decide⟩

/-- All but a tenth of a millionth of a share. -/
def nearSale : NonNegative ℚ := ⟨99.9999999, by norm_num⟩

/-- The sale of all shares marks the run. -/
theorem execution_gated_sale :
    (∃ run material, Gated saleStage ⟨1⟩ run material ((saleTrace wholeSale).take 20)) ∧
    ∃ run material, Complete saleStage ⟨1⟩ run material idle eps ((saleTrace wholeSale).take 32) := by
  have hsubmit : saleTrace wholeSale = (saleTrace wholeSale).take 20 ++
      ⟨.request (.submit ⟨(soldOrder wholeSale).clientOrderId.val, "AAA", .sell, 100, some 10⟩), .ok (soldOrder wholeSale)⟩ ::
        (saleTrace wholeSale).drop 21 := by
    with_unfolding_all rfl
  have hmark : saleTrace wholeSale = (saleTrace wholeSale).take 32 ++ [returned (.markExecuted ⟨1⟩ ⟨0, 0⟩) true] := by
    with_unfolding_all rfl
  obtain ⟨hgated, hcomplete⟩ := execution_gated saleStage ⟨1⟩ idle (saleTrace wholeSale) _
    (runs_sale wholeSale) sale_loads
  obtain ⟨-, run, material, -, hrun⟩ := hcomplete _ _ _ _ _ hmark
  exact ⟨hgated _ _ _ _ hsubmit, run, material, hrun⟩

/-- The sale's only target. -/
def saleTarget : ExecutionTarget ℚ := ⟨⟨1⟩, ⟨1, Samples.one_securityId⟩, "AAA", .sell, 100, 10⟩

/-- The run is also marked when the broker sold a little less than its target, which the residual rounds away. -/
theorem unfilled_marked : ¬∀ (e : Stage ℚ String OpenTimestamps.Bytes) (runId : UUID) (s : Switch) (evs : Trace ℚ)
    (q : Program (desk ℚ) (Except ExecError (ExecutionResult ℚ) × Switch)),
    ((executeRun e runId).start s).Runs evs q →
    (∀ run, returned (.loadRun runId) (some run) ∈ evs → run.runId = runId) →
    ∀ before id endedAt reply after, evs = before ++ ⟨.request (.markExecuted id endedAt), reply⟩ :: after →
      ∃ run material, Complete e runId run material s 0 before := by
  intro h
  have hmark : saleTrace nearSale = (saleTrace nearSale).take 32 ++ [returned (.markExecuted ⟨1⟩ ⟨0, 0⟩) true] := by
    with_unfolding_all rfl
  obtain ⟨run, material, ⟨targets, outcomes, hdrove, hfilled⟩, -⟩ := h saleStage ⟨1⟩ idle (saleTrace nearSale) _
    (runs_sale nearSale) sale_loads _ _ _ _ _ hmark
  obtain ⟨s₁, s₂, opening, plan, trade, rest, heq, hopening, hplan, -⟩ := hdrove.phases
  have hbegin : (saleTrace nearSale).take 32 = returned (.loadRun ⟨1⟩) (some (Sink.runAt .anchored)) ::
      returned (.loadCommitmentMaterial ⟨1⟩) (some saleMaterial) ::
      (((preflight saleStage ⟨1⟩).start idle).trace (saleAnswer nearSale) ⟨false, []⟩ ++
      (((ExecutionStage.targets (Sink.runAt .anchored) cashSnapshot.book).start idle).trace (saleAnswer nearSale)
        ⟨false, []⟩ ++ ((saleTrace nearSale).take 32).drop 12)) := by
    with_unfolding_all rfl
  obtain ⟨hrun, hbegun⟩ := List.cons.inj (hbegin.symm.trans heq)
  obtain ⟨hmaterial, hread⟩ := List.cons.inj hbegun
  obtain rfl := Option.some.inj (returned_inj.mp hrun)
  obtain rfl := Option.some.inj (returned_inj.mp hmaterial)
  have hpreflight : (((preflight saleStage ⟨1⟩).start idle).exec (saleAnswer nearSale) ⟨false, []⟩).1 = (.ok (), idle) := by
    with_unfolding_all rfl
  obtain ⟨hopened, -, hrest⟩ := (Program.runs_trace (saleAnswer nearSale) _ _).unique hopening hread
  obtain ⟨-, rfl⟩ := Prod.mk.inj (hpreflight.symm.trans hopened)
  have htargets : (((ExecutionStage.targets (Sink.runAt .anchored) cashSnapshot.book).start idle).exec (saleAnswer nearSale)
      ⟨false, []⟩).1 = (.ok [saleTarget], idle) := by
    with_unfolding_all rfl
  obtain ⟨hplanned, -, -⟩ := (Program.runs_trace (saleAnswer nearSale) _ _).unique hplan hrest
  obtain rfl := Except.ok.inj (Prod.mk.inj (htargets.symm.trans hplanned)).1
  cases hfilled with
  | cons hfirst _ =>
    have hsub : (saleTrace nearSale).take 32 ⊆ saleTrace nearSale := List.take_subset 32 _
    obtain ⟨-, ⟨lim, hlim, hqty | ⟨mkt, hmkt, hqty⟩⟩, -⟩ := hfirst
    · obtain rfl := sale_reported hsub hlim
      norm_num [saleTarget, soldOrder, nearSale] at hqty
    · obtain rfl := sale_reported hsub hlim
      obtain rfl := sale_reported hsub hmkt
      norm_num [saleTarget, soldOrder, nearSale] at hqty

end ExecutionStage
end AsymmetricCommittee
