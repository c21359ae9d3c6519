import AsymmetricCommittee.Orchestration.ExecutionStage
import AsymmetricCommittee.Theorems.HaltActions

/-! Rules for the steps of the switch: what their calls and the engaging keep, the halts, the automatic triggers and the
    gate keep. -/

namespace AsymmetricCommittee
variable {K : Type} [Field K] [LinearOrder K] {W σ : Type} {C : Contract (desk K) W}

section Calls
variable {P : σ → W → Prop} (hP : ∀ s, C.Stable (P s))
include hP

theorem keeps_request {r : Request K} (h : ∀ s w, C.inv w → P s w →
    C.allowed (.request r) w ∧ ∀ reply w', C.answers (.request r) w reply w' → P s w') :
    (request r : Steps K σ r.Value).Keeps C P :=
  (Act.keeps_ask hP h).bind fun reply => match reply with
    | .ok a => Act.keeps_pure hP a
    | .error _ => Act.keeps_throw hP _

theorem keeps_orRaise {α : Type} (x : Except ExecError α) : (orRaise x : Steps K σ α).Keeps C P := by
  cases x with
  | ok a => exact Act.keeps_pure hP a
  | error e => exact Act.keeps_throw hP e

end Calls

namespace Halt

/-! ### Sweeping -/

section Sweeping
variable {P : σ → W → Prop} {o : Options} (hP : ∀ s, C.Stable (P s))
  (hcall : ∀ c s w, Sweeps c → C.inv w → P s w → C.allowed c w ∧ ∀ r w', C.answers c w r w' → P s w')
include hP hcall

theorem keeps_cancelEach (orders : List (BrokerOrder K)) : (cancelEach orders : Steps K σ Unit).Keeps C P := by
  induction orders with
  | nil => exact Act.keeps_pure hP ()
  | cons order orders ih =>
    have hcancel : (Executor.Leg.cancelOrder order.brokerOrderId : Steps K σ Unit).Keeps C P := by
      refine (Act.keeps_ask hP fun s w => hcall (.request (.cancelOrder _)) s w trivial).bind fun reply => ?_
      split
      · exact Act.keeps_pure hP ()
      · exact Act.keeps_pure hP ()
      · exact Act.keeps_throw hP _
    exact hcancel.bind fun _ => ih

theorem keeps_confirmAll (orders : List (BrokerOrder K)) : (confirmAll o orders : Steps K σ Unit).Keeps C P := by
  have hconfirm (id : Label) (n : Nat) : (confirmTerminal o id n : Steps K σ Unit).Keeps C P := by
    induction n with
    | zero => exact Act.keeps_throw hP _
    | succ n ih =>
      refine (keeps_request hP fun s w => hcall (.request (.getOrder id)) s w trivial).bind fun order => ?_
      split
      · exact Act.keeps_pure hP ()
      · exact (Act.keeps_ask hP fun s w => hcall (.sleep _) s w trivial).bind fun _ => ih
  induction orders with
  | nil => exact Act.keeps_pure hP ()
  | cons order orders ih => exact (hconfirm _ _).bind fun _ => ih

theorem keeps_cancelRounds (n : Nat) (cancelled : List Label) :
    (cancelRounds o n cancelled : Steps K σ (List Label)).Keeps C P := by
  induction n generalizing cancelled with
  | zero =>
    refine (keeps_request hP fun s w => hcall (.request .openOrders) s w trivial).bind fun orders => ?_
    rcases orders with _ | ⟨order, orders⟩
    · exact Act.keeps_pure hP cancelled
    · exact Act.keeps_throw hP _
  | succ n ih =>
    refine (keeps_request hP fun s w => hcall (.request .openOrders) s w trivial).bind fun orders => ?_
    rcases orders with _ | ⟨order, orders⟩
    · exact Act.keeps_pure hP cancelled
    · exact (keeps_cancelEach hP hcall _).bind fun _ => (keeps_confirmAll hP hcall _).bind fun _ => ih _

end Sweeping

/-! ### The switch -/

/-- The calls of the halts and the triggers, besides the engaging. -/
def HaltCall : (desk K).Call → Prop
  | .request .openOrders | .request (.getOrder _) | .request (.cancelOrder _) | .request .positions
  | .request (.closePosition _) | .request .accountEquity | .request .equityHistory | .request .feeds
  | .request (.recordHalt _) | .clock | .sleep _ => True
  | _ => False

/-- The calls of the switch's steps, besides the engaging. -/
def SwitchCall : (desk K).Call → Prop
  | .request .openOrders | .request (.getOrder _) | .request (.cancelOrder _) | .request .positions
  | .request (.closePosition _) | .request .accountEquity | .request .equityHistory | .request .feeds
  | .request (.recordHalt _) | .request (.loadKillSwitchEvents _) | .clock | .sleep _ => True
  | _ => False

theorem switchCall_of_haltCall {c : (desk K).Call} (h : HaltCall c) : SwitchCall c := by
  unfold HaltCall at h
  split at h
  all_goals trivial

/-- What the calls of a halt keep, and what the engaging leads to. Whether a flatten was completed does not matter. -/
structure HaltRules (C : Contract (desk K) W) (P : Switch → W → Prop) : Prop where
  stable : ∀ s, C.Stable (P s)
  call : ∀ c s w, HaltCall c → C.inv w → P s w → C.allowed c w ∧ ∀ r w', C.answers c w r w' → P s w'
  engage : ∀ trigger s w, C.inv w → P s w → C.allowed (.engage trigger) w ∧
    ∀ r w', C.answers (.engage trigger) w r w' → P { s with trigger := s.trigger.halt trigger } w'
  flattened : ∀ s w b, P s w → P { s with flattened := b } w

/-- The same when the stored events are read as well. -/
structure SwitchRules (C : Contract (desk K) W) (P : Switch → W → Prop) : Prop where
  stable : ∀ s, C.Stable (P s)
  call : ∀ c s w, SwitchCall c → C.inv w → P s w → C.allowed c w ∧ ∀ r w', C.answers c w r w' → P s w'
  engage : ∀ trigger s w, C.inv w → P s w → C.allowed (.engage trigger) w ∧
    ∀ r w', C.answers (.engage trigger) w r w' → P { s with trigger := s.trigger.halt trigger } w'
  flattened : ∀ s w b, P s w → P { s with flattened := b } w

theorem SwitchRules.halting {P : Switch → W → Prop} (R : SwitchRules C P) : HaltRules C P where
  stable := R.stable
  call c s w hc := R.call c s w (switchCall_of_haltCall hc)
  engage := R.engage
  flattened := R.flattened

namespace HaltRules
variable {P : Switch → W → Prop} (R : HaltRules C P) {o : Options}
include R

theorem request (r : Request K) (h : HaltCall (.request r : (desk K).Call)) :
    (request r : Steps K Switch r.Value).Keeps C P := keeps_request R.stable fun s w => R.call _ s w h

theorem clock : (clock : Steps K Switch AwareDatetime).Keeps C P := Act.keeps_ask R.stable fun s w => R.call .clock s w trivial

theorem engages (trigger : KillTrigger) : (AsymmetricCommittee.engage trigger : Steps K Switch Unit).Keeps C P := by
  intro s w hw hs
  refine Act.meets_ask_bind.mpr fun w₁ hr hi => ?_
  obtain ⟨hallowed, hnext⟩ := R.engage trigger s w₁ hi (R.stable s w w₁ hr hi hs)
  exact ⟨hallowed, fun u w₂ hans hi₂ => (R.stable _).stays (hnext u w₂ hans)⟩

theorem sweeps (c : (desk K).Call) (s : Switch) (w : W) (hc : Sweeps c) (hw : C.inv w) (hs : P s w) :
    C.allowed c w ∧ ∀ r w', C.answers c w r w' → P s w' := by
  refine R.call c s w ?_ hw hs
  unfold Sweeps at hc
  split at hc
  all_goals trivial

theorem cancelAllConfirmed : (cancelAllConfirmed o : Steps K Switch (List Label)).Keeps C P :=
  keeps_cancelRounds R.stable R.sweeps rounds []

/-- What a halt does on its own keeps what the calls keep. -/
theorem act (flatten : Bool) (done : Done) :
    (Act.isolated (act (K := K) o flatten) done : Steps K Switch (Except ExecError Unit × Done)).Keeps C P := by
  have hclose (positions : List (String × K)) : (closeEach positions : Steps K Done Unit).Uses HaltCall := by
    induction positions with
    | nil => exact Act.uses_pure
    | cons position positions ih =>
      unfold closeEach
      split
      · exact ih
      · exact (uses_request trivial).bind fun _ => ih
  have hcancel : (Halt.cancelAllConfirmed o : Steps K Done (List Label)).Uses HaltCall := by
    refine (uses_cancelRounds rounds []).mono fun c hc => ?_
    unfold Sweeps at hc
    split at hc
    all_goals trivial
  have hact : (Halt.act o flatten : Steps K Done Unit).Uses HaltCall := by
    refine hcancel.bind fun cancelled => Act.uses_modify.bind fun _ => ?_
    split
    · exact (uses_request trivial).bind fun positions => (hclose positions.entries).bind fun _ => Act.uses_modify
    · exact Act.uses_pure
  exact Act.Keeps.isolated R.stable hact R.call

theorem halt (trigger : KillTrigger) (flatten : Bool) (loss drawdown : Option K) :
    (halt o trigger flatten loss drawdown).Keeps C P := by
  refine (R.engages trigger).bind fun _ => (R.act flatten ⟨[], false⟩).bind fun run => ?_
  refine (Act.keeps_modify R.stable fun s w => R.flattened s w _).bind fun _ => R.clock.bind fun now => ?_
  exact (keeps_orRaise R.stable _).bind fun event => (R.request (.recordHalt event) trivial).bind fun _ => keeps_orRaise R.stable _

theorem drawdown (current : K) (required : Bool) : (drawdown current required : Steps K Switch (Option K)).Keeps C P := by
  refine (R.request .equityHistory trivial).bind fun history => ?_
  split
  · exact Act.keeps_pure R.stable _
  · split
    · exact Act.keeps_throw R.stable _
    · exact Act.keeps_pure R.stable _

theorem check (limits : Limits K) (lastSuccess : FeedName → Option AwareDatetime) :
    (check o limits lastSuccess).Keeps C P := by
  refine (Act.keeps_get R.stable).bind fun switch => ?_
  split
  · exact Act.keeps_pure R.stable ()
  · refine (R.request .accountEquity trivial).bind fun equity => R.clock.bind fun now => (keeps_orRaise R.stable _).bind fun trigger => ?_
    split
    · exact (R.drawdown _ _).bind fun _ => Act.keeps_pure R.stable ()
    · exact (R.drawdown _ _).bind fun figure => (keeps_orRaise R.stable _).bind fun loss => R.halt _ _ _ _

theorem manualHalt (flatten : Bool) : (manualHalt o flatten : Steps K Switch Unit).Keeps C P := by
  refine (Act.keeps_get R.stable).bind fun switch => ?_
  split
  · exact Act.keeps_pure R.stable ()
  · have hfigure : (safeDrawdown : Steps K Switch (Option K)).Keeps C P :=
      ((R.request .accountEquity trivial).bind fun equity => R.drawdown _ _).tryCatch fun _ => Act.keeps_pure R.stable _
    exact hfigure.bind fun figure => R.halt _ _ _ _

theorem settleOpenOrders : (settleOpenOrders o : Steps K Switch (List Label)).Keeps C P := by
  refine (Act.keeps_get R.stable).bind fun switch => ?_
  split
  · exact R.cancelAllConfirmed
  · exact Act.keeps_pure R.stable _

end HaltRules
end Halt

namespace ExecutionStage
open Halt
variable {P : Switch → W → Prop} {O Header : Type} (e : Stage K O Header)

theorem keeps_settle (R : HaltRules C P) (runId : UUID) : (settle e runId : Steps K Switch Unit).Keeps C P :=
  R.settleOpenOrders.bind fun _ => Act.keeps_pure R.stable ()

theorem keeps_checkTriggers (R : HaltRules C P) (runId : UUID) : (checkTriggers e runId).Keeps C P :=
  (R.request .feeds trivial).bind fun _ => R.check _ _

theorem keeps_engageAll (R : HaltRules C P) (events : List (KillSwitchEvent K)) :
    (engageAll events : Steps K Switch Unit).Keeps C P := by
  induction events with
  | nil => exact Act.keeps_pure R.stable ()
  | cons event events ih => exact (R.engages _).bind fun _ => ih

theorem keeps_gate (R : SwitchRules C P) (runId : UUID) : (gate e runId).Keeps C P := by
  have hload : (request (.loadKillSwitchEvents runId) : Steps K Switch _).Keeps C P :=
    keeps_request R.stable fun s w => R.call _ s w trivial
  refine (Act.keeps_get R.stable).bind fun before => hload.bind fun events => ?_
  refine (keeps_engageAll R.halting events).bind fun _ => (Act.keeps_get R.stable).bind fun switch => ?_
  split
  · split
    · exact Act.keeps_pure R.stable ()
    · exact keeps_settle e R.halting runId
  · exact keeps_checkTriggers e R.halting runId

end ExecutionStage
end AsymmetricCommittee
