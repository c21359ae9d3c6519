import AsymmetricCommittee.Theorems.DoubleOrders
import AsymmetricCommittee.Theorems.ExecutionGate

/-! What a halt stops. Attempts at a run and manual halts of it are at work in any number, in any order, and stop anywhere; a
    phase only buys when its gate found no stored halt. -/

namespace AsymmetricCommittee
namespace ExecutionStage
open Executor Halt
variable {K : Type} [Field K] [LinearOrder K] {O Header : Type}

/-! ### What is promised -/

/-- The stored events are not read, and orders are of one kind: limit or market. -/
def SamePhase (isLimit : Bool) : (desk K).Call → Prop
  | .request (.loadKillSwitchEvents _) => False
  | .request (.submit order) => order.limitPrice.isSome = isLimit
  | _ => True

/-- The attempt is in the phase whose gate read these events. -/
def Since (runId : UUID) (events : List (KillSwitchEvent K)) (isLimit : Bool) (w : Trace K) : Prop :=
  ∃ before, Grew (SamePhase isLimit) (before ++ [returned (.loadKillSwitchEvents runId) events]) w

/-- A purchase is submitted in a phase whose gate read no event. -/
def GateRead (runId : UUID) : (desk K).Call → Trace K → Prop
  | .request (.submit order), w => order.side = .buy → Since runId [] order.limitPrice.isSome w
  | _, _ => True

/-- The gate read these events, and left the switch idle only when there were none. -/
def Passed (runId : UUID) (events : List (KillSwitchEvent K)) (isLimit : Bool) (s : Switch) (w : Trace K) : Prop :=
  Since runId events isLimit w ∧ (s.trigger.halted = false → events = [])

section Steps
variable {runId : UUID} {events : List (KillSwitchEvent K)} {isLimit : Bool} {s : Switch} {w : Trace K}

theorem Since.snoc (h : Since runId events isLimit w) {event : Event (desk K)} (hevent : SamePhase isLimit event.call) :
    Since runId events isLimit (w ++ [event]) := by
  obtain ⟨before, hgrew⟩ := h
  exact ⟨before, hgrew.snoc hevent⟩

theorem gateRead_of_sendless {c : (desk K).Call} (hc : Sendless c) (w : Trace K) : GateRead runId c w := by
  unfold GateRead
  split
  · exact hc.elim
  · trivial

/-- Steps that submit nothing may be taken anywhere. -/
theorem sendless_meets {σ α : Type} {m : Steps K σ α} (hu : m.Uses Sendless) (s : σ) (w : Trace K) :
    m.Meets (Contract.traced (GateRead runId)) s (fun _ _ _ => True) w := by
  refine Program.Meets.mono (Program.Uses.meets (hu s) (P := fun _ => True) (fun _ _ _ _ h => h) ?_ trivial)
    fun _ _ _ h => h
  exact fun c w hc _ _ => ⟨gateRead_of_sendless hc w, fun _ _ _ => trivial⟩

/-! ### The gate -/

theorem samePhase_of_haltCall {c : (desk K).Call} (hc : HaltCall c) : SamePhase isLimit c := by
  unfold HaltCall at hc
  split at hc
  all_goals trivial

theorem sendless_of_haltCall {c : (desk K).Call} (hc : HaltCall c) : Sendless c := by
  unfold HaltCall at hc
  split at hc
  all_goals trivial

theorem haltRules : HaltRules (Contract.traced (GateRead runId)) (Passed (K := K) runId events isLimit) where
  stable _ := Contract.stable_traced
  call c s w hc _ h := by
    refine ⟨gateRead_of_sendless (sendless_of_haltCall hc) w, fun r w' hans => ?_⟩
    subst hans
    exact ⟨h.1.snoc (samePhase_of_haltCall hc), h.2⟩
  engage trigger s w _ h := by
    refine ⟨trivial, fun r w' hans => ?_⟩
    subst hans
    refine ⟨h.1.snoc trivial, fun hidle => ?_⟩
    rw [KillSwitch.halted_halt] at hidle
    cases hidle
  flattened _ _ _ h := h

/-- What the gate has read is engaged. -/
theorem engageAll_meets (h : Since runId events isLimit w) :
    (engageAll events : Steps K Switch Unit).Meets (Contract.traced (GateRead runId)) s
      (fun _ s' w' => Passed runId events isLimit s' w') w := by
  cases events with
  | nil => exact Contract.stays_traced.mpr ⟨h, fun _ => rfl⟩
  | cons event rest =>
    refine meets_engage_bind trivial ?_
    refine keeps_engageAll haltRules rest _ _ trivial ⟨h.snoc trivial, fun hidle => ?_⟩
    rw [KillSwitch.halted_halt] at hidle
    cases hidle

/-- A gate that lets the attempt on has read the events. -/
theorem gate_passed (e : Stage K O Header) (isLimit : Bool) (s : Switch) (w : Trace K) :
    (gate e runId).Meets (Contract.traced (GateRead runId)) s
      (Act.post (fun _ s' w' => ∃ events, Passed runId events isLimit s' w') fun _ _ => True) w := by
  refine Act.meets_get_bind.mpr (meets_request_bind trivial (fun events => ?_) fun _ => trivial)
  have hsince : Since runId events isLimit (w ++ [returned (.loadKillSwitchEvents runId) events]) := ⟨w, Grew.refl⟩
  refine (engageAll_meets hsince).bind ?_ fun _ _ _ _ _ => trivial
  rintro u s₁ w₁ - h₁
  have hpost {x : Except ExecError Unit} {s₂ : Switch} {w₂ : Trace K} (h : Passed runId events isLimit s₂ w₂) :
      Act.post (fun _ s' w' => ∃ events, Passed runId events isLimit s' w') (fun _ _ => True) x s₂ w₂ := by
    cases x with
    | ok u => exact ⟨events, h⟩
    | error error => trivial
  refine Act.meets_get_bind.mpr ?_
  split
  · split
    · exact Contract.stays_traced.mpr ⟨events, h₁⟩
    · exact (keeps_settle e haltRules runId _ _ trivial h₁).mono fun _ _ _ _ h => hpost h
  · exact (keeps_checkTriggers e haltRules runId _ _ trivial h₁).mono fun _ _ _ _ h => hpost h

/-! ### The phases -/

/-- What a name's step calls leaves its phase. -/
theorem sendCall_passed {c : (desk K).Call} (hc : SendCall isLimit s.trigger c) (h : Passed runId events isLimit s w) :
    GateRead runId c w ∧ ∀ r w', w' = w ++ [(⟨c, r⟩ : Event (desk K))] → Passed runId events isLimit s w' := by
  have hphase : SamePhase isLimit c := by
    unfold SendCall TendCall at hc
    split at hc
    · exact hc.1
    · split at hc
      all_goals trivial
  refine ⟨?_, ?_⟩
  · unfold GateRead
    split
    · intro hbuy
      rw [hc.1, ← h.2 (hc.2 hbuy)]
      exact h.1
    · trivial
  · rintro r w' rfl
    exact ⟨h.1.snoc hphase, h.2⟩

/-- The book is in the phase whose gate read these events. -/
def BookPassed (runId : UUID) (events : List (KillSwitchEvent K)) (isLimit : Bool) (book : Book) (w : Trace K) : Prop :=
  Passed runId events isLimit book.switch w

theorem keeps_phase {concerns : Book → Leg K → Bool} {step : KillSwitch → Steps K (Leg K) Unit}
    (huse : ∀ ks, (step ks).Uses (SendCall isLimit ks)) (legs : List (Leg K)) :
    (phase concerns step legs).Keeps (Contract.traced (GateRead runId)) (BookPassed runId events isLimit) := by
  refine Act.Keeps.mapM (fun _ => Contract.stable_traced) (fun leg => ?_) legs
  refine (Act.keeps_get fun _ => Contract.stable_traced).bind fun book => ?_
  split
  · intro b w _ h
    refine Act.meets_get_bind.mpr ((Act.Meets.isolated (Q := fun _ _ w => Passed runId events isLimit b.switch w) ?_).bind
      ?_ ?_)
    · refine Program.Uses.meets (huse b.switch.trigger leg) Contract.stable_traced (fun c w hc _ h => ?_) h
      exact sendCall_passed hc h
    · rintro ⟨x, leg'⟩ b' w' - ⟨rfl, y, hy, h'⟩
      cases hy
      cases x with
      | ok u => exact Contract.stays_traced.mpr h'
      | error error => exact Contract.stays_traced.mpr h'
    · rintro error b' w' - ⟨-, y, hy, -⟩
      cases hy
  · exact Act.keeps_pure (fun _ => Contract.stable_traced) leg

theorem bookPassed_call (c : (desk K).Call) (hc : TendCall c) (book : Book) (w : Trace K) (_ : True)
    (h : BookPassed runId events isLimit book w) :
    GateRead runId c w ∧ ∀ r w', w' = w ++ [(⟨c, r⟩ : Event (desk K))] → BookPassed runId events isLimit book w' :=
  sendCall_passed (sendCall_of_tendCall hc) h

theorem keeps_waitOnce (o : Options K) (legs : List (Leg K)) :
    (waitOnce o legs).Keeps (Contract.traced (GateRead runId)) (BookPassed runId events isLimit) := by
  have hstable (book : Book) : (Contract.traced (GateRead runId)).Stable (BookPassed (K := K) runId events isLimit book) :=
    Contract.stable_traced
  refine (Act.keeps_get hstable).bind fun book => ?_
  dsimp only
  split
  · refine (Act.keeps_ask hstable (bookPassed_call .clock trivial)).bind fun now => ?_
    split
    · exact Act.keeps_ask hstable (bookPassed_call (.sleep _) trivial)
    · exact Act.keeps_pure hstable ()
  · exact Act.keeps_pure hstable ()

theorem keeps_awaitAll (pollSeconds : Int) (attempts : Nat) (legs : List (Leg K)) :
    (awaitAll pollSeconds attempts legs).Keeps (Contract.traced (GateRead runId)) (BookPassed runId events isLimit) := by
  have hstable (book : Book) : (Contract.traced (GateRead runId)).Stable (BookPassed (K := K) runId events isLimit book) :=
    Contract.stable_traced
  have hone (leg : Leg K) : (awaitOne leg).Keeps (Contract.traced (GateRead runId)) (BookPassed runId events isLimit) := by
    unfold awaitOne
    split
    · exact (keeps_request hstable (bookPassed_call (.request (.getOrder _)) trivial)).bind fun order => Act.keeps_pure hstable _
    · exact Act.keeps_pure hstable _
  induction attempts generalizing legs with
  | zero => exact Act.keeps_pure hstable legs
  | succ attempts ih =>
    refine (Act.Keeps.mapM hstable hone legs).bind fun legs => ?_
    split
    · exact (Act.keeps_ask hstable (bookPassed_call (.sleep _) trivial)).bind fun _ => ih legs
    · exact Act.keeps_pure hstable legs

variable [FloorRing K]

theorem keeps_limitPhases (o : Options K) (legs : List (Leg K)) :
    (limitPhases o legs).Keeps (Contract.traced (GateRead runId)) (BookPassed runId events true) := by
  refine (keeps_phase (fun _ => uses_resolveReference.mono fun _ => sendCall_of_tendCall) legs).bind fun legs => ?_
  refine (keeps_phase (uses_submitLimit o) legs).bind fun legs => (keeps_waitOnce o legs).bind fun _ => ?_
  refine (keeps_phase (fun _ => uses_cancelLimit.mono fun _ => sendCall_of_tendCall) legs).bind fun legs => ?_
  refine (keeps_awaitAll _ _ legs).bind fun legs => ?_
  exact keeps_phase (fun _ => uses_closeLimit.mono fun _ => sendCall_of_tendCall) legs

omit [FloorRing K] in
theorem keeps_marketPhase (o : Options K) (legs : List (Leg K)) :
    (marketPhase o legs).Keeps (Contract.traced (GateRead runId)) (BookPassed runId events false) := by
  refine (keeps_phase uses_submitMarket legs).bind fun legs => (keeps_awaitAll _ _ legs).bind fun legs => ?_
  exact keeps_phase (fun _ => uses_closeMarket.mono fun _ => sendCall_of_tendCall) legs

/-! ### The attempt -/

variable (e : Stage K O Header)

omit [FloorRing K] in
theorem consult_passed (isLimit : Bool) (book : Book) (w : Trace K) :
    (consult (some (gate e runId))).Meets (Contract.traced (GateRead runId)) book
      (Act.post (fun _ b w' => ∃ events, BookPassed runId events isLimit b w') fun _ _ => True) w := by
  change Act.Meets _ (Act.zoom Book.switch (fun book switch => ({ book with switch := switch } : Book)) (gate e runId)) book _ w
  refine (gate_passed e isLimit book.switch w).zoom ?_
  rintro (error | u) s' w' - hx
  · trivial
  · exact hx

theorem bookSteps_gated (targets : List (ExecutionTarget K)) (book : Book) (w : Trace K) :
    (bookSteps e.options targets (some (gate e runId))).Meets (Contract.traced (GateRead runId)) book
      (fun _ _ _ => True) w := by
  unfold bookSteps
  split
  · exact Contract.stays_traced.mpr trivial
  · have hinit : (targets.mapM Leg.init : Steps K Book (List (Leg K))).Uses Sendless :=
      Act.Uses.mapM (fun t => (uses_request trivial).bind fun _ => Act.uses_pure) targets
    refine (sendless_meets hinit book w).bind ?_ fun _ _ _ _ h => h
    rintro legs b w - -
    refine (consult_passed e true b w).bind ?_ fun _ _ _ _ h => h
    rintro u b w - ⟨events, hb⟩
    refine Act.meets_get_bind.mpr ?_
    refine (keeps_limitPhases e.options _ b w trivial hb).bind ?_ fun _ _ _ _ _ => trivial
    rintro legs b w - -
    refine (consult_passed e false b w).bind ?_ fun _ _ _ _ h => h
    rintro u b w - ⟨events, hb⟩
    refine (keeps_marketPhase e.options legs b w trivial hb).bind ?_ fun _ _ _ _ _ => trivial
    rintro legs b w - -
    refine Act.meets_get_bind.mpr ?_
    split
    · exact Contract.stays_traced.mpr trivial
    · exact Contract.stays_traced.mpr trivial

theorem executeBook_gated (targets : List (ExecutionTarget K)) (s : Switch) (w : Trace K) :
    (executeBook e.options targets (some (gate e runId))).Meets (Contract.traced (GateRead runId)) s
      (fun _ _ _ => True) w := by
  have hsteps := @bookSteps_gated K _ _ O Header runId _ e targets ⟨s, [], false⟩ w
  change Act.Meets _ (Act.zoom (fun switch => (⟨switch, [], false⟩ : Book)) (fun _ book => book.switch)
    (bookSteps e.options targets (some (gate e runId)))) s _ w
  refine Act.Meets.zoom hsteps ?_
  exact fun _ _ _ _ h => h

omit [FloorRing K] in
theorem sendless_deadLetter (run : RunRecord K) (error : ExecError) :
    (deadLetter run error : Steps K Switch Unit).Uses Sendless :=
  (uses_request trivial).tryCatch fun _ => Act.uses_pure

theorem executeTargets_gated (run : RunRecord K) (targets : List (ExecutionTarget K)) (s : Switch) (w : Trace K) :
    (executeTargets e runId run targets).Meets (Contract.traced (GateRead runId)) s (fun _ _ _ => True) w := by
  refine (executeBook_gated e targets s w).tryCatch (fun _ _ _ _ h => h) fun error s w _ _ => ?_
  exact sendless_meets ((sendless_deadLetter run error).bind fun _ => Act.uses_throw) s w

omit [FloorRing K] in
theorem sendless_haltController (id : UUID) : (haltController id : Steps K Switch Unit).Uses Sendless :=
  (uses_request trivial).bind fun _ => Act.uses_modify

omit [FloorRing K] in
/-- Steps that keep nothing in particular only make the calls of a halt. -/
theorem sendless_of_keeps {α : Type} {m : Steps K Switch α}
    (h : m.Keeps (Contract.traced fun c (_ : Trace K) => Sendless c) fun _ _ => True) : m.Uses Sendless :=
  fun s => Program.Meets.uses (h s [] trivial trivial)

omit [FloorRing K] in
theorem sendless_settle (id : UUID) : (settle e id : Steps K Switch Unit).Uses Sendless :=
  sendless_of_keeps (keeps_settle e sendlessRules.halting id)

omit [FloorRing K] in
theorem sendless_haltedResult (id : UUID) (outcomes : List (Outcome K)) : (haltedResult id outcomes).Uses Sendless :=
  Act.uses_get.bind fun _ => (uses_request trivial).bind fun _ => Act.uses_pure

omit [FloorRing K] in
theorem sendless_preflight (id : UUID) : (preflight e id).Uses Sendless := by
  refine (sendless_haltController id).bind fun _ => Act.uses_get.bind fun switch => ?_
  split
  · exact sendless_settle e id
  · exact sendless_of_keeps (keeps_checkTriggers e sendlessRules.halting id)

omit [FloorRing K] in
theorem sendless_eligible (id : UUID) (found : Option (RunRecord K)) :
    (eligible e id found : Steps K Switch (RunRecord K × PortfolioSnapshot K)).Uses Sendless := by
  have hbook (run : RunRecord K) (material : CommitmentMaterial K) :
      (committedBook e run id material : Steps K Switch (PortfolioSnapshot K)).Uses Sendless := by
    unfold committedBook
    split
    · dsimp only
      split
      · exact Act.uses_throw
      · split
        · exact Act.uses_throw
        · exact Act.uses_pure
    · exact (sendless_deadLetter run .integrity).bind fun _ => Act.uses_throw
  cases found with
  | none => exact Act.uses_throw
  | some run =>
    unfold eligible
    dsimp only
    split
    · exact Act.uses_throw
    · refine (uses_request trivial).bind fun material => ?_
      split
      · exact Act.uses_throw
      · exact (hbook run _).bind fun _ => Act.uses_pure

omit [FloorRing K] in
theorem sendless_of_quiet {c : (desk K).Call} (hc : Quiet c) : Sendless c := by
  unfold Quiet at hc
  split at hc
  all_goals trivial

omit [FloorRing K] in
theorem sendless_finish (id : UUID) (targets : List (ExecutionTarget K)) (outcomes : List (Outcome K)) :
    (finish id targets outcomes).Uses Sendless := by
  refine Act.uses_get.bind fun switch => ?_
  split
  · exact sendless_haltedResult id outcomes
  · split
    · have hread (t : ExecutionTarget K) :
          (request (.findExecution (clientOrderId id t.securityId "lim")) : Steps K Switch _).Uses Sendless :=
        uses_request trivial
      refine (Act.Uses.mapM hread targets).bind fun stored => ?_
      split
      · exact Act.uses_throw
      · exact (Act.uses_ask trivial).bind fun now => (uses_request trivial).bind fun _ => Act.uses_pure
    · exact Act.uses_pure

theorem executeEligible_gated (run : RunRecord K) (snapshot : PortfolioSnapshot K) (s : Switch) (w : Trace K) :
    (executeEligible e runId run snapshot).Meets (Contract.traced (GateRead runId)) s (fun _ _ _ => True) w := by
  unfold executeEligible
  split
  · exact Contract.stays_traced.mpr trivial
  · refine (sendless_meets (sendless_preflight e runId) s w).bind ?_ fun _ _ _ _ h => h
    rintro u s w - -
    refine Act.meets_get_bind.mpr ?_
    split
    · exact sendless_meets (sendless_haltedResult runId []) s w
    · have hplan : (ExecutionStage.targets run snapshot.book : Steps K Switch _).Uses Sendless :=
        (uses_targets snapshot.book).mono fun _ => sendless_of_quiet
      refine (sendless_meets hplan s w).bind ?_ fun _ _ _ _ h => h
      rintro targets s w - -
      refine (executeTargets_gated e run targets s w).bind ?_ fun _ _ _ _ h => h
      rintro outcomes s w - -
      exact sendless_meets (sendless_finish runId targets outcomes) s w

/-- A purchase of an attempt is submitted in a phase whose gate read no event. -/
theorem executeRun_gated (s : Switch) (w : Trace K) :
    (executeRun e runId).Meets (Contract.traced (GateRead runId)) s (fun _ _ _ => True) w := by
  refine meets_request_bind trivial (fun found => ?_) fun _ => trivial
  split
  · next run hrun =>
    have hsettle : (settleHalted e run).Uses Sendless :=
      (sendless_haltController run.runId).bind fun _ => (sendless_settle e run.runId).bind fun _ => Act.uses_pure
    exact sendless_meets hsettle s _
  · refine (sendless_meets (sendless_eligible e runId found) s _).bind ?_ fun _ _ _ _ h => h
    rintro ⟨run, snapshot⟩ s w - -
    exact executeEligible_gated e run snapshot s w

omit [FloorRing K] in
theorem sendless_manualHalt (flatten : Bool) : (manualHalt e runId flatten).Uses Sendless := by
  refine (uses_request trivial).bind fun run => ?_
  split
  · exact Act.uses_throw
  · refine (sendless_haltController runId).bind fun _ => ?_
    refine (sendless_of_keeps (sendlessRules.halting.manualHalt flatten)).bind fun _ => ?_
    refine (uses_request trivial).bind fun after => ?_
    split
    · exact Act.uses_throw
    · exact Act.uses_pure

end Steps

/-! ### Attempts and halts -/

/-- What has happened, and the kill-switch events that are stored. -/
structure HaltStore (K : Type) [Field K] [LinearOrder K] where
  log : List (Nat × Event (desk K))
  halts : List (KillSwitchEvent K)

/-- What a call does to the stored events. An event may be stored although its recorder is told of a failure. -/
def Stores (halts : List (KillSwitchEvent K)) : (c : (desk K).Call) → (desk K).Reply c → List (KillSwitchEvent K) → Prop
  | .request (.recordHalt event), .ok _, halts' => halts' = halts ++ [event]
  | .request (.recordHalt event), .error _, halts' => halts' = halts ∨ halts' = halts ++ [event]
  | .request (.loadKillSwitchEvents runId), .ok events, halts' =>
    halts' = halts ∧ ∀ event, event ∈ events ↔ event ∈ halts ∧ event.runId = runId
  | _, _, halts' => halts' = halts

/-- Attempts at a run and manual halts of it, under any numbers; others may store events too. -/
def halting [FloorRing K] (e : Stage K O Header) (runId : UUID) : Dynamics (desk K) (HaltStore K) where
  moves w w' := w'.log = w.log ∧ w.halts ⊆ w'.halts
  answers n c w r w' := w'.log = w.log ++ [(n, ⟨c, r⟩)] ∧ Stores w.halts c r w'.halts
  starts _ _ p := (∃ s, p = ((executeRun e runId).start s).void) ∨
    ∃ s flatten, p = ((manualHalt e runId flatten).start s).void

section Runs
variable {e : Stage K O Header} {runId : UUID} {halts halts' : List (KillSwitchEvent K)}

theorem Stores.subset {c : (desk K).Call} {r : (desk K).Reply c} (h : Stores halts c r halts') : halts ⊆ halts' := by
  unfold Stores at h
  split at h
  · rw [h]
    exact List.subset_append_left _ _
  · rcases h with rfl | rfl
    · exact List.Subset.refl _
    · exact List.subset_append_left _ _
  · rw [h.1]
    exact List.Subset.refl _
  · rw [h]
    exact List.Subset.refl _

variable [FloorRing K] {s s₁ s₂ : Pool (desk K) (HaltStore K)}

/-- Every purchase so far was submitted in a phase whose gate read no event. -/
theorem allowed_reached (halts : List (KillSwitchEvent K))
    (h : Pool.Reaches (halting e runId) (Pool.idle ⟨[], halts⟩) s) : LoggedAllowed (GateRead runId) s.world.log := by
  have hsound : Pool.Sound (halting e runId) (Contract.logged HaltStore.log (GateRead runId)) fun w =>
      LoggedAllowed (GateRead runId) w.log := by
    refine Pool.sound_logged (fun w w' hmove => hmove.1) (fun n c w r w' hans => hans.1) ?_
    rintro n w p (⟨s, rfl⟩ | ⟨s, flatten, rfl⟩)
    · exact (executeRun_gated e s _).void
    · exact (sendless_meets (sendless_manualHalt e flatten) s _).void
  exact ((Pool.good_idle (w := ⟨[], halts⟩) LoggedAllowed.nil).reaches hsound h).world

/-- Once an event is stored every read returns it. -/
theorem reads_return {event : KillSwitchEvent K} (hstored : event ∈ s₁.world.halts)
    (h : Pool.Reaches (halting e runId) s₁ s₂) : event ∈ s₂.world.halts ∧ ∃ later, s₂.world.log = s₁.world.log ++ later ∧
      ∀ n events, (n, returned (.loadKillSwitchEvents event.runId) events) ∈ later → event ∈ events := by
  induction h with
  | refl => exact ⟨hstored, [], (List.append_nil _).symm, nofun⟩
  | tail _ hstep ih =>
    obtain ⟨hmem, later, hlog, hreads⟩ := ih
    cases hstep with
    | move hmove => exact ⟨hmove.2 hmem, later, hmove.1.trans hlog, hreads⟩
    | @call n c next r w hp hans =>
      refine ⟨hans.2.subset hmem, later ++ [(n, ⟨c, r⟩)], ?_, fun k events hk => ?_⟩
      · change w.log = _
        rw [hans.1, hlog, List.append_assoc]
      · rcases List.mem_append.mp hk with hk | hk
        · exact hreads k events hk
        · obtain ⟨rfl, hevent⟩ := Prod.mk.inj (List.mem_singleton.mp hk)
          cases hevent
          exact (hans.2.2 event).mpr ⟨hmem, rfl⟩
    | start hn hstart => exact ⟨hmem, later, hlog, hreads⟩
    | stop n => exact ⟨hmem, later, hlog, hreads⟩

/-- A purchase after an event is stored is submitted in a phase whose gate had read the stored events before. -/
theorem halt_stops_buying (e : Stage K O Header) (runId : UUID) (halts : List (KillSwitchEvent K))
    (s₁ s₂ : Pool (desk K) (HaltStore K)) (hreached : Pool.Reaches (halting e runId) (Pool.idle ⟨[], halts⟩) s₁)
    (event : KillSwitchEvent K) (hevent : event ∈ s₁.world.halts) (hrun : event.runId = runId)
    (hlater : Pool.Reaches (halting e runId) s₁ s₂) :
    ∃ later, s₂.world.log = s₁.world.log ++ later ∧ ∀ between n order reply after,
      later = between ++ (n, ⟨.request (.submit order), reply⟩) :: after → order.side = .buy →
      Since runId [] order.limitPrice.isSome (own n s₁.world.log) ∧
        ∀ event ∈ own n between, SamePhase order.limitPrice.isSome event.call := by
  obtain ⟨-, later, hlog, hreads⟩ := reads_return hevent hlater
  refine ⟨later, hlog, ?_⟩
  rintro between n order reply after rfl hbuy
  have hallowed := allowed_reached halts (hreached.trans hlater)
  rw [hlog, ← List.append_assoc] at hallowed
  obtain ⟨before, evs, hsplit, hevs⟩ := hallowed _ _ _ _ rfl hbuy
  rw [own_append, List.append_assoc, List.singleton_append, List.append_eq_append_iff] at hsplit
  rcases hsplit with ⟨mid, hbefore, hmid⟩ | ⟨mid, hfirst, hmid⟩
  · -- the gate would have read the event
    have hread : returned (.loadKillSwitchEvents runId) [] ∈ own n between := by
      rw [hmid]
      exact List.mem_append_right _ List.mem_cons_self
    have hmem := hreads n [] (hrun.symm ▸ List.mem_append_left _ (mem_own.mp hread))
    cases hmem
  · rcases List.append_eq_cons_iff.mp hmid.symm with ⟨rfl, hbetween⟩ | ⟨mid', rfl, hevs'⟩
    · have hread : returned (.loadKillSwitchEvents runId) [] ∈ own n between := by
        rw [hbetween]
        exact List.mem_cons_self
      have hmem := hreads n [] (hrun.symm ▸ List.mem_append_left _ (mem_own.mp hread))
      cases hmem
    · subst hevs'
      refine ⟨⟨before, mid', ?_, fun event h => hevs event (List.mem_append_left _ h)⟩,
        fun event h => hevs event (List.mem_append_right _ h)⟩
      rw [hfirst, List.append_assoc, List.singleton_append]

end Runs

/-! ### A purchase after a halt -/

theorem growth_weight : (0 : ℚ) ≤ 1 / 20 ∧ 1 / 20 ≤ maxPositionCap ℚ := by norm_num [maxPositionCap]

theorem growth_cash : (0 : ℚ) ≤ 19 / 20 ∧ (19 / 20 : ℚ) ≤ 1 := by norm_num

/-- A twentieth of the equity. -/
def growth : ProposedPosition ℚ :=
  ⟨⟨1, Samples.one_securityId⟩, ⟨"TICKER_11", Samples.token_eleven⟩, ⟨"a", Samples.label_a⟩,
    ⟨1, Samples.probability_one ℚ⟩, ⟨1 / 20, growth_weight⟩⟩

theorem growth_gross : grossExposure [growth] ≤ 1 + 1e-9 := by norm_num [grossExposure, growth]

def growthBook : ProposedBook ℚ :=
  ⟨⟨1⟩, ⟨0, 0⟩, [growth], List.nodup_singleton _, List.nodup_singleton _, growth_gross⟩

theorem growth_residual : |(19 / 20 : ℚ) - growthBook.cashWeight| ≤ 1e-9 := by
  norm_num [ProposedBook.cashWeight, growthBook, grossExposure, growth]

theorem short_text : 1 ≤ "a".length ∧ "a".length ≤ 4000 := by decide

/-- Run 1 buys the name. -/
def growthMaterial : CommitmentMaterial ℚ :=
  { saleMaterial with
    snapshot := {
      runId := ⟨1⟩
      asOf := ⟨0, 0⟩
      book := growthBook
      cashWeight := ⟨19 / 20, growth_cash⟩
      cio := some ⟨[], ⟨"a", short_text⟩, ⟨1⟩, ⟨0, 0⟩, ⟨"a", Samples.label_a⟩, ⟨"a", Samples.label_a⟩, List.nodup_nil⟩
      book_run := rfl
      book_asOf := rfl
      cash_residual := growth_residual } }

def growthRows : MarketRows ℚ :=
  ⟨⟨[(⟨1, Samples.one_securityId⟩, "AAA")], List.nodup_singleton _⟩,
    ⟨[("AAA", ⟨1, Samples.one_securityId⟩)], List.nodup_singleton _⟩, fun _ => some 10⟩

/-- The account holds nothing, and the broker opens what it is sent. -/
def growthReply : (c : DeskCall ℚ) → HaltStore ℚ → c.Reply
  | .request (.loadRun _), _ => .ok (some (Sink.runAt .anchored))
  | .request (.loadCommitmentMaterial _), _ => .ok (some growthMaterial)
  | .request (.loadKillSwitchEvents runId), w => .ok (w.halts.filter fun event => event.runId = runId)
  | .request (.recordHalt _), _ => .ok true
  | .request .feeds, _ => .ok fun _ => none
  | .request .accountEquity, _ => .ok (20000, 20000)
  | .request .equityHistory, _ => .ok [20000]
  | .request .positions, _ => .ok ⟨[], List.nodup_nil⟩
  | .request .openOrders, _ => .ok []
  | .request (.marketRows _), _ => .ok growthRows
  | .request (.reference _), _ => .ok (10, .iexMid)
  | .request (.findByClientId _), _ => .ok none
  | .request (.findExecution _), _ => .ok none
  | .request (.submit _), _ => .ok hundredOpen
  | .request _, _ => .error .other
  | .clock, _ => ⟨0, 0⟩
  | .sleep _, _ => ()
  | .engage _, _ => ()

def growthHalts : DeskCall ℚ → List (KillSwitchEvent ℚ) → List (KillSwitchEvent ℚ)
  | .request (.recordHalt event), halts => halts ++ [event]
  | _, halts => halts

/-- What a party is replied, and what is stored then. -/
def growthAnswer (n : Nat) (c : DeskCall ℚ) (w : HaltStore ℚ) : c.Reply × HaltStore ℚ :=
  (growthReply c w, ⟨w.log ++ [(n, ⟨c, growthReply c w⟩)], growthHalts c w.halts⟩)

theorem answers_growth (n : Nat) (c : DeskCall ℚ) (w : HaltStore ℚ) :
    (halting saleStage ⟨1⟩).answers n c w (growthAnswer n c w).1 (growthAnswer n c w).2 := by
  refine ⟨rfl, ?_⟩
  rcases c with r | - | - | -
  · cases r with
    | loadKillSwitchEvents runId =>
      refine ⟨rfl, fun event => ?_⟩
      simp
    | _ => exact rfl
  · exact rfl
  · exact rfl
  · exact rfl

/-- The attempt, and the halt of the operator. -/
def growthRun : Program (desk ℚ) Unit := ((executeRun saleStage ⟨1⟩).start idle).void

def operatorHalt : Program (desk ℚ) Unit := ((manualHalt saleStage ⟨1⟩ true).start idle).void

def nextOrder : Program (desk ℚ) Unit → Option (OrderRequest ℚ)
  | .call (.request (.submit order)) _ => some order
  | _ => none

theorem call_of_nextOrder {p : Program (desk ℚ) Unit} {order : OrderRequest ℚ} (h : nextOrder p = some order) :
    ∃ next, p = .call (.request (.submit order)) next := by
  unfold nextOrder at h
  split at h
  · next order' next =>
    cases h
    exact ⟨next, rfl⟩
  · cases h

/-- What is stored when the attempt has passed its gate and the halt is recorded. -/
def gatePassed : HaltStore ℚ := Program.after (I := desk ℚ) (W := HaltStore ℚ) (growthAnswer 0) 20 growthRun ⟨[], []⟩

def haltRecorded : HaltStore ℚ := Program.after (I := desk ℚ) (W := HaltStore ℚ) (growthAnswer 1) 9 operatorHalt gatePassed

/-- The purchase that is sent then. -/
def growthOrder : OrderRequest ℚ := ⟨hundred.limId, "AAA", .buy, 100, some 10⟩

theorem growth_next :
    nextOrder (Program.left (I := desk ℚ) (W := HaltStore ℚ) (growthAnswer 0) 20 growthRun ⟨[], []⟩) = some growthOrder := by
  decide +kernel

theorem growth_halted : haltRecorded.halts.map (fun event => (event.runId, event.trigger)) = [(⟨1⟩, .manual)] := by
  decide +kernel

/-- A party starts and makes some calls. -/
theorem growth_calls {s : Pool (desk ℚ) (HaltStore ℚ)} {n : Nat} {p : Program (desk ℚ) Unit} (hidle : s.procs n = none)
    (hstart : (halting saleStage ⟨1⟩).starts n s.world p) (calls : Nat) :
    ∃ s', Pool.Reaches (halting saleStage ⟨1⟩) s s' ∧
      s'.world = Program.after (I := desk ℚ) (W := HaltStore ℚ) (growthAnswer n) calls p s.world ∧
      s'.procs n = some (Program.left (I := desk ℚ) (W := HaltStore ℚ) (growthAnswer n) calls p s.world) ∧
      ∀ m, m ≠ n → s'.procs m = s.procs m := by
  have h := Relation.ReflTransGen.single (Pool.Step.start hidle hstart)
  have h := h.trans (Pool.reaches_left (answers_growth n) (Pool.procs_set s n _) calls)
  refine ⟨_, h, rfl, Pool.procs_set _ n _, fun m hm => ?_⟩
  simp [Pool.set, hm]

/-- The purchase follows the halt in the log. -/
theorem bought_after_halt : ∃ s₁ s₂, ∃ event ∈ s₁.world.halts,
    Pool.Reaches (halting saleStage ⟨1⟩) (Pool.idle ⟨[], []⟩) s₁ ∧ Pool.Reaches (halting saleStage ⟨1⟩) s₁ s₂ ∧
    event.runId = ⟨1⟩ ∧ event.trigger = .manual ∧
    s₂.world.log = s₁.world.log ++ [(0, ⟨.request (.submit growthOrder), .ok hundredOpen⟩)] := by
  obtain ⟨s, hreached, hworld, hproc, hothers⟩ := growth_calls (s := Pool.idle ⟨[], []⟩) (n := 0) (p := growthRun) rfl
    (.inl ⟨idle, rfl⟩) 20
  obtain ⟨s₁, hreached₁, hworld₁, -, hothers₁⟩ := growth_calls (n := 1) (p := operatorHalt) (hothers 1 (by decide))
    (.inr ⟨idle, true, rfl⟩) 9
  obtain ⟨next, hnext⟩ := call_of_nextOrder growth_next
  have hproc₁ : s₁.procs 0 = some (.call (.request (.submit growthOrder)) next) := by
    rw [hothers₁ 0 (by decide), hproc]
    exact congrArg some hnext
  have hhalts : s₁.world = haltRecorded := by
    rw [hworld₁, hworld]
    rfl
  obtain ⟨event, hevent, hmanual⟩ : ∃ event ∈ s₁.world.halts, (event.runId, event.trigger) = (⟨1⟩, .manual) := by
    rw [hhalts, ← List.mem_map, growth_halted]
    exact List.mem_singleton_self _
  obtain ⟨hrun, htrigger⟩ := Prod.mk.inj hmanual
  have hstep := Pool.Step.call (D := halting saleStage ⟨1⟩) hproc₁ (answers_growth 0 _ _)
  exact ⟨s₁, _, event, hevent, hreached.trans hreached₁, .single hstep, hrun, htrigger, rfl⟩

/-- The attempt had passed its gate when the halt was stored. -/
theorem halt_stops_buying_growth : ∃ s₁ : Pool (desk ℚ) (HaltStore ℚ),
    Pool.Reaches (halting saleStage ⟨1⟩) (Pool.idle ⟨[], []⟩) s₁ ∧ s₁.world.halts ≠ [] ∧
    Since ⟨1⟩ [] true (own 0 s₁.world.log) := by
  obtain ⟨s₁, s₂, event, hevent, hreached, hlater, hrun, -, hlog⟩ := bought_after_halt
  obtain ⟨later, hlater', hbought⟩ := halt_stops_buying saleStage ⟨1⟩ [] s₁ s₂ hreached event hevent hrun hlater
  refine ⟨s₁, hreached, List.ne_nil_of_mem hevent, ?_⟩
  obtain rfl := List.append_cancel_left (hlater'.symm.trans hlog)
  exact (hbought [] 0 growthOrder _ [] rfl rfl).1

/-- A halt does not stop a phase that has passed its gate. -/
theorem bought_past_halt : ¬∀ (e : Stage ℚ String OpenTimestamps.Bytes) (runId : UUID) (halts : List (KillSwitchEvent ℚ))
    (s₁ s₂ : Pool (desk ℚ) (HaltStore ℚ)), Pool.Reaches (halting e runId) (Pool.idle ⟨[], halts⟩) s₁ →
    (∃ event ∈ s₁.world.halts, event.runId = runId ∧ event.trigger = .manual) → Pool.Reaches (halting e runId) s₁ s₂ →
    ∀ later, s₂.world.log = s₁.world.log ++ later → ∀ n order reply,
      (n, (⟨.request (.submit order), reply⟩ : Event (desk ℚ))) ∈ later → order.side ≠ .buy := by
  intro h
  obtain ⟨s₁, s₂, event, hevent, hreached, hlater, hrun, htrigger, hlog⟩ := bought_after_halt
  exact h saleStage ⟨1⟩ [] s₁ s₂ hreached ⟨event, hevent, hrun, htrigger⟩ hlater _ hlog 0 growthOrder _
    (List.mem_singleton_self _) rfl

end ExecutionStage
end AsymmetricCommittee
