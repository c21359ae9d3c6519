import AsymmetricCommittee.Lib.Traces
import AsymmetricCommittee.Theorems.SharedReferences

/-! One failing run never hides the others. Whatever a poll or a sweep is replied, it asks for the lock of each due item once and
    in order, works on the item only under that lock, gives the lock back before the next one, and notes what the item raised. -/

namespace AsymmetricCommittee
namespace ReferenceCapture
open Reference ReferenceRules Store

variable {e : Service} {σ α β : Type} {w : List (Event captureDesk)} {runId : UUID} {stage : String} {now : AwareDatetime}

/-! ### Steps that leave the locks -/

/-- Calls other than those of the locks. -/
def Lockless : CaptureCall → Prop
  | .request (.tryLock _ _) => False
  | .request (.unlock _ _) => False
  | _ => True

/-- Any reply may come, and any call may be made. -/
abbrev anyReply : Contract captureDesk (List (Event captureDesk)) := Contract.traced fun _ _ => True

/-- Steps that leave the locks and what the poll has noted. -/
def Quiet (m : Capture Poll α) : Prop := ∀ poll w, m.Keeps anyReply fun poll' w' => poll' = poll ∧ AsymmetricCommittee.Grew Lockless w w'

section Quiet
variable {m : Capture Poll α} {f : α → Capture Poll β}

theorem stable_any {P : List (Event captureDesk) → Prop} : anyReply.Stable P := Contract.stable_traced

theorem quiet_pure (a : α) : Quiet (pure a) := fun _ _ => Act.keeps_pure (fun _ => stable_any) a

theorem quiet_throw (error : CaptureError) : Quiet (throw error : Capture Poll α) := fun _ _ => Act.keeps_throw (fun _ => stable_any) error

theorem Quiet.bind (h : Quiet m) (hf : ∀ a, Quiet (f a)) : Quiet (m >>= f) := fun poll w => (h poll w).bind fun a => hf a poll w

theorem Quiet.tryCatch {handle : CaptureError → Capture Poll α} (h : Quiet m) (hh : ∀ error, Quiet (handle error)) :
    Quiet (tryCatch m handle) := fun poll w => (h poll w).tryCatch fun error => hh error poll w

theorem Quiet.mapM {g : α → Capture Poll β} (h : ∀ a, Quiet (g a)) (l : List α) : Quiet (l.mapM g) :=
  fun poll w => Act.Keeps.mapM (fun _ => stable_any) (fun a => h a poll w) l

theorem quiet_orThrow (x : Except CaptureError α) : Quiet (orThrow x) := by
  cases x with
  | ok a => exact quiet_pure a
  | error error => exact quiet_throw error

theorem quiet_call {q : CaptureRequest} (hq : Lockless (.request q)) : Quiet (call q) := by
  refine Quiet.bind (fun poll w => Act.keeps_ask (fun _ => stable_any) ?_) fun reply => ?_
  · rintro poll' w' - ⟨hpoll, hgrew⟩
    refine ⟨trivial, fun reply w'' hw'' => ⟨hpoll, ?_⟩⟩
    rw [hw'']
    exact hgrew.snoc hq
  · cases reply with
    | ok a => exact quiet_pure a
    | error error => exact quiet_throw error

end Quiet

theorem quiet_symbolGroups (run : RunRecord ℚ) : Quiet (symbolGroups e run : Capture Poll SymbolGroups) :=
  (quiet_call (by trivial)).bind fun _ => (quiet_call (by trivial)).bind fun _ => (quiet_call (by trivial)).bind fun _ =>
    (quiet_call (by trivial)).bind fun _ => quiet_pure _

theorem quiet_resolveLive (symbol : Ticker) (now : AwareDatetime) :
    Quiet (resolveLive symbol now : Capture Poll ReferenceObservation) := by
  have hprice : Quiet (referencePrice symbol now : Capture Poll (Positive ℚ × ReferenceSource)) := by
    refine (quiet_call (by trivial)).bind fun quote => ?_
    split
    · exact quiet_pure _
    · refine (quiet_call (by trivial)).bind fun trade => ?_
      split
      · exact quiet_pure _
      · exact quiet_throw _
  refine Quiet.tryCatch (hprice.bind fun _ => quiet_pure _) fun error => ?_
  split
  · exact quiet_pure _
  · exact quiet_throw _

theorem quiet_uncovered (run : RunRecord ℚ) (mode : RefMode) (missing : List Ticker) (committedAt now : AwareDatetime) :
    Quiet (uncovered e run mode missing committedAt now : Capture Poll CaptureResult) := by
  unfold uncovered
  split
  · exact quiet_pure _
  · exact (Quiet.mapM (fun _ => quiet_orThrow _) missing).bind fun _ => (quiet_call (by trivial)).bind fun _ => quiet_pure _

theorem quiet_referenceDay (run : RunRecord ℚ) (now : AwareDatetime) :
    Quiet (referenceDay e run now : Capture Poll (Option (TradingSession × AwareDatetime))) := by
  refine Quiet.tryCatch ((quiet_call (by trivial)).bind fun cal => ?_) fun error => ?_
  · split
    · exact quiet_pure _
    · exact quiet_throw _
  · split
    · exact quiet_pure _
    · exact quiet_throw _

theorem quiet_due (mode : RefMode) (runId : UUID) (now : AwareDatetime) : Quiet (due e mode runId now : Capture Poll Due) := by
  refine (quiet_call (by trivial)).bind fun run => ?_
  split
  · exact quiet_throw _
  · next run =>
    split
    · exact quiet_throw _
    · refine (quiet_call (by trivial)).bind fun committedAt => ?_
      split
      · exact quiet_pure _
      · refine ((quiet_symbolGroups run).bind fun _ => quiet_pure _).bind fun symbols => ?_
        refine ((quiet_call (by trivial)).bind fun _ => quiet_pure _).bind fun missing => ?_
        split
        · exact quiet_pure _
        · refine (quiet_referenceDay run now).bind fun day => ?_
          split
          · exact (quiet_uncovered run mode missing _ now).bind fun _ => quiet_pure _
          · split
            · exact quiet_pure _
            · exact quiet_pure _

theorem quiet_captureLive (runId : UUID) (now : AwareDatetime) : Quiet (captureLive e runId now : Capture Poll CaptureResult) := by
  refine (quiet_due .live runId now).bind fun found => ?_
  cases found with
  | settled result => exact quiet_pure _
  | rows missing session refTime =>
    refine (Quiet.mapM (fun symbol => ?_) missing).bind fun rows => ?_
    · have hrow (obs : ReferenceObservation) : Quiet (do
          let r ← orThrow (executionReference (observedRow runId .live session refTime now liveVersion obs))
          return some r : Capture Poll (Option ExecutionReference)) :=
        (quiet_orThrow _).bind fun _ => quiet_pure _
      unfold liveRow
      dsimp only
      split
      · exact hrow _
      · refine (quiet_resolveLive symbol now).bind fun obs => ?_
        split
        · exact quiet_pure _
        · exact hrow obs
    · split
      · exact quiet_pure _
      · exact (quiet_call (by trivial)).bind fun _ => quiet_pure _

theorem quiet_haltSymbolSet (req : HaltReferenceRequest) (now : AwareDatetime) :
    Quiet (haltSymbolSet e req now : Capture Poll (Option HaltSymbolSet)) := by
  refine (quiet_call (by trivial)).bind fun existing => ?_
  split
  · exact quiet_pure _
  · refine (quiet_call (by trivial)).bind fun run => ?_
    split
    · exact quiet_pure _
    · next run =>
      refine (quiet_symbolGroups run).bind fun groups => ?_
      dsimp only
      split
      · exact quiet_pure _
      · split
        · exact (quiet_call (by trivial)).bind fun _ => quiet_pure _
        · exact quiet_throw _

theorem quiet_haltByReconstruction (req : HaltReferenceRequest) (symbolSet : HaltSymbolSet) (missing : List Ticker)
    (now : AwareDatetime) : Quiet (haltByReconstruction e req symbolSet missing now : Capture Poll (List HaltReference)) := by
  have hsession : Quiet (haltSession e req now : Capture Poll (Option TradingSession)) := by
    refine Quiet.tryCatch ((quiet_call (by trivial)).bind fun cal => ?_) fun error => ?_
    · split
      · exact quiet_pure _
      · exact quiet_throw _
    · split
      · exact quiet_pure _
      · exact quiet_throw _
  refine hsession.bind fun session => ?_
  cases session with
  | none =>
    dsimp only
    split
    · exact quiet_pure _
    · exact quiet_pure _
  | some session =>
    dsimp only
    split
    · exact quiet_pure _
    · split
      · split
        · exact quiet_pure _
        · exact quiet_pure _
      · refine (Quiet.mapM (fun symbol => ?_) missing).bind fun _ => quiet_pure _
        unfold reconstructedRow
        dsimp only
        refine (Quiet.tryCatch ((quiet_call (by trivial)).bind fun _ => quiet_pure _) fun error => ?_).bind fun obs => ?_
        · split
          · exact quiet_pure _
          · exact quiet_pure _
          · exact quiet_throw _
        · split
          · exact quiet_pure _
          · exact quiet_pure _

theorem quiet_resolveHalt (req : HaltReferenceRequest) (now : AwareDatetime) : Quiet (resolveHalt e req now : Capture Poll Nat) := by
  have hrecord (rows : List HaltReference) : Quiet (recordRows rows : Capture Poll Nat) := by
    unfold recordRows
    split
    · exact quiet_pure _
    · exact quiet_call (by trivial)
  refine (quiet_haltSymbolSet req now).bind fun found => ?_
  split
  · exact quiet_pure _
  · next symbolSet =>
    refine (quiet_call (by trivial)).bind fun have_ => ?_
    dsimp only
    split
    · exact quiet_pure _
    · split
      · exact (Quiet.mapM (fun symbol => (quiet_resolveLive symbol now).bind fun _ => quiet_pure _) _).bind fun _ => hrecord _
      · exact (quiet_haltByReconstruction req symbolSet _ now).bind fun _ => hrecord _

/-! ### Rounds -/

/-- What is called for one item: its lock, which may not be granted; and when it is, the item's calls and the release. -/
def Round (runId : UUID) (stage : String) (evs : List (Event captureDesk)) : Prop :=
  (∃ reply, evs = [⟨.request (.tryLock runId stage), reply⟩] ∧ reply ≠ .ok true) ∨
  ∃ during reply, evs = ⟨.request (.tryLock runId stage), .ok true⟩ :: (during ++ [⟨.request (.unlock runId stage), reply⟩]) ∧
    ∀ ev ∈ during, Lockless ev.call

/-- A request goes on in every way that it may be replied. -/
theorem meets_call {q : CaptureRequest} {s : σ} {Q : Except CaptureError q.Value → σ → List (Event captureDesk) → Prop}
    (h : ∀ reply, Q reply s (w ++ [⟨.request q, reply⟩])) : (call q : Capture σ q.Value).Meets anyReply s Q w := by
  refine Act.Meets.bind (Q := fun x s' w' => s' = s ∧ ∃ reply : Except CaptureError q.Value, x = .ok reply ∧
    w' = w ++ [⟨.request q, reply⟩]) ?_ ?_ fun _ _ _ _ h => nomatch h.2
  · refine Act.meets_ask.mpr ?_
    rintro w₁ rfl -
    exact ⟨trivial, fun reply w₂ hw₂ _ w₃ hw₃ _ => ⟨rfl, reply, rfl, hw₃.trans hw₂⟩⟩
  · rintro reply s' w' - ⟨rfl, reply', hreply, rfl⟩
    cases hreply
    cases reply with
    | ok a => exact Act.meets_pure.mpr (Contract.stays_traced.mpr (h (.ok a)))
    | error error => exact Act.meets_throw.mpr (Contract.stays_traced.mpr (h (.error error)))

/-- What the state may be after the steps on an item: as before, or with what the item raised noted. -/
def Noted (runId : UUID) (poll poll' : Poll) : Prop :=
  ∃ noted, poll'.errors = poll.errors ++ noted ∧ (noted.map Prod.fst).Sublist [runId]

theorem meets_orThrow (x : Except CaptureError α) (s : σ) (w : List (Event captureDesk)) :
    (orThrow x : Capture σ α).Meets anyReply s (fun _ s' w' => s' = s ∧ w' = w) w := by
  cases x with
  | ok a => exact Act.meets_pure.mpr (Contract.stays_traced.mpr ⟨rfl, rfl⟩)
  | error error => exact Act.meets_throw.mpr (Contract.stays_traced.mpr ⟨rfl, rfl⟩)

/-- What the steps on an item leave: what is noted and, but for calls that take no lock, the trace. Without the lock nothing
    happens. -/
def Inside (got : Bool) (poll : Poll) (w : List (Event captureDesk)) (poll' : Poll) (w' : List (Event captureDesk)) : Prop :=
  poll'.errors = poll.errors ∧ ∃ during, w' = w ++ during ∧ (∀ ev ∈ during, Lockless ev.call) ∧ (got = false → during = [])

theorem meets_steps {steps : Capture Poll Nat} (hquiet : Quiet steps) (got : Bool) (poll : Poll) (w : List (Event captureDesk)) :
    (if got then do
        let n ← steps
        modify fun poll => { poll with written := poll.written + n }
      else pure () : Capture Poll Unit).Meets anyReply poll (fun _ => Inside got poll w) w := by
  cases got with
  | false =>
    refine Act.meets_pure.mpr (Contract.stays_traced.mpr ⟨rfl, [], (List.append_nil w).symm, fun ev hev => ?_, fun _ => rfl⟩)
    cases hev
  | true =>
    refine (hquiet poll w poll w trivial ⟨rfl, AsymmetricCommittee.Grew.refl⟩).bind ?_ ?_
    · rintro n poll₁ w₁ - ⟨rfl, during, rfl, hduring⟩
      exact Act.meets_modify.mpr (Contract.stays_traced.mpr ⟨rfl, during, rfl, hduring, fun h => by cases h⟩)
    · rintro error poll₁ w₁ - ⟨rfl, during, rfl, hduring⟩
      exact ⟨rfl, during, rfl, hduring, fun h => by cases h⟩

/-- What a block raises is kept for later. -/
theorem meets_held {block : Capture Poll Unit} {poll : Poll} {Q : Poll → List (Event captureDesk) → Prop}
    (h : block.Meets anyReply poll (fun _ => Q) w) :
    (tryCatch (do
      block
      return .ok ()) fun error => return .error error : Capture Poll (Except CaptureError Unit)).Meets anyReply poll
      (fun x poll' w' => (∃ result, x = .ok result) ∧ Q poll' w') w := by
  refine Act.Meets.tryCatch (Q := fun _ => Q) (h.bind ?_ fun _ _ _ _ hq => hq) ?_ ?_
  · rintro ⟨⟩ poll₁ w₁ - hq
    exact Act.meets_pure.mpr (Contract.stays_traced.mpr hq)
  · rintro result poll₁ w₁ - hq
    exact ⟨⟨result, rfl⟩, hq⟩
  · rintro error poll₁ w₁ - hq
    exact Act.meets_pure.mpr (Contract.stays_traced.mpr ⟨⟨.error error, rfl⟩, hq⟩)

/-- The steps on an item never raise, and are one round. -/
theorem meets_isolate {steps : Capture Poll Nat} (hquiet : Quiet steps) (poll : Poll) (w : List (Event captureDesk)) :
    (isolate runId stage steps).Meets anyReply poll
      (fun x poll' w' => x = .ok () ∧ Noted runId poll poll' ∧ ∃ evs, w' = w ++ evs ∧ Round runId stage evs) w := by
  -- the round ends the same way whatever the steps came to
  have hround : (runLock runId stage fun got => do
      if got then
        let n ← steps
        modify fun poll => { poll with written := poll.written + n } : Capture Poll Unit).Meets anyReply poll
      (fun _ poll' w' => poll'.errors = poll.errors ∧ ∃ evs, w' = w ++ evs ∧ Round runId stage evs) w := by
    refine Act.Meets.bind (Q := fun x poll' w' => poll' = poll ∧ w' = w ++ [⟨.request (.tryLock runId stage), x⟩])
      (meets_call fun reply => ⟨rfl, rfl⟩) ?_ ?_
    · rintro got poll₁ w₁ - ⟨rfl, rfl⟩
      refine (meets_held (meets_steps hquiet got poll₁ _)).bind ?_ ?_
      · rintro result poll₂ w₂ - ⟨-, herrors, during, rfl, hduring, hnone⟩
        cases got with
        | false =>
          obtain rfl := hnone rfl
          refine (meets_orThrow result poll₂ _).mono ?_
          rintro x poll₃ w₃ - ⟨rfl, rfl⟩
          exact ⟨herrors, _, List.append_nil _, Or.inl ⟨.ok false, rfl, by rintro ⟨⟩⟩⟩
        | true =>
          refine Act.Meets.bind (Q := fun x poll' w' => poll' = poll₂ ∧ ∃ reply : Except CaptureError Unit,
            w' = w ++ (⟨.request (.tryLock runId stage), .ok true⟩ :: (during ++ [⟨.request (.unlock runId stage), reply⟩])))
            (meets_call fun reply => ⟨rfl, reply, ?_⟩) ?_ ?_
          · simp
          · rintro ⟨⟩ poll₃ w₃ - ⟨rfl, reply, rfl⟩
            refine (meets_orThrow result poll₃ _).mono ?_
            rintro x poll₄ w₄ - ⟨rfl, rfl⟩
            exact ⟨herrors, _, rfl, Or.inr ⟨during, reply, rfl, hduring⟩⟩
          · rintro error poll₃ w₃ - ⟨rfl, reply, rfl⟩
            exact ⟨herrors, _, rfl, Or.inr ⟨during, reply, rfl, hduring⟩⟩
      · rintro error poll₂ w₂ - ⟨⟨result, hok⟩, -⟩
        cases hok
    · rintro error poll' w' - ⟨rfl, rfl⟩
      exact ⟨rfl, _, rfl, Or.inl ⟨.error error, rfl, by rintro ⟨⟩⟩⟩
  refine hround.tryCatch ?_ ?_
  · rintro ⟨⟩ poll' w' - ⟨herrors, hevs⟩
    exact ⟨rfl, ⟨[], herrors.trans (List.append_nil _).symm, List.nil_sublist _⟩, hevs⟩
  · rintro error poll' w' - ⟨herrors, hevs⟩
    refine Act.meets_modify.mpr (Contract.stays_traced.mpr ⟨rfl, ⟨[(runId, error)], ?_, List.Sublist.refl _⟩, hevs⟩)
    rw [herrors]

/-- A poll of several items: each due one has its round, in order, and what is noted names due items. -/
theorem meets_items {item : α → UUID} {stageOf : α → String} {steps : α → Capture Poll Nat} (hquiet : ∀ a, Quiet (steps a))
    {due : α → Bool} {each : α → Capture Poll Unit}
    (heach : ∀ a, each a = if due a then isolate (item a) (stageOf a) (steps a) else pure ()) (l : List α) (poll : Poll)
    (w : List (Event captureDesk)) : (l.forM each).Meets anyReply poll
      (fun x poll' w' => x = .ok () ∧ ∃ rounds noted, w' = w ++ rounds.flatten ∧
        List.Forall₂ (fun a => Round (item a) (stageOf a)) (l.filter due) rounds ∧
        poll'.errors = poll.errors ++ noted ∧ (noted.map Prod.fst).Sublist ((l.filter due).map item)) w := by
  induction l generalizing poll w with
  | nil =>
    refine Act.meets_pure.mpr (Contract.stays_traced.mpr ⟨rfl, [], [], ?_, .nil, ?_, .slnil⟩)
    · exact (List.append_nil w).symm
    · exact (List.append_nil _).symm
  | cons a l ih =>
    show (each a >>= fun _ => l.forM each).Meets anyReply poll _ w
    rw [heach]
    by_cases hdue : due a = true
    · have hfilter : (a :: l).filter due = a :: l.filter due := List.filter_cons_of_pos hdue
      rw [if_pos hdue, hfilter]
      refine (meets_isolate (hquiet a) poll w).bind ?_ ?_
      · rintro ⟨⟩ poll₁ w₁ - ⟨-, ⟨noted, hnoted, hsub⟩, evs, rfl, hround⟩
        refine (ih poll₁ _).mono ?_
        rintro x poll₂ w₂ - ⟨rfl, rounds, noted', rfl, hrounds, hnoted', hsub'⟩
        refine ⟨rfl, evs :: rounds, noted ++ noted', ?_, .cons hround hrounds, ?_, ?_⟩
        · rw [List.flatten_cons, List.append_assoc]
        · rw [hnoted', hnoted, List.append_assoc]
        · rw [List.map_append, List.map_cons, ← List.singleton_append]
          exact hsub.append hsub'
      · rintro error poll₁ w₁ - ⟨hok, -⟩
        cases hok
    · have hfilter : (a :: l).filter due = l.filter due := List.filter_cons_of_neg hdue
      rw [if_neg hdue, hfilter]
      exact Act.meets_pure_bind.mpr (ih poll w)

/-! ### The tasks -/

/-- A run is recent enough to be polled. -/
def polled (now : AwareDatetime) (run : RunRecord ℚ) : Bool := decide (now.instant - run.asOf.instant ≤ recent)

/-- What a task does once its list is read: a round for each item, in order; the items whose steps raised are noted, and the
    task itself does not raise. -/
def Isolated {α : Type} (item : α → UUID) (stageOf : α → String) (list : CaptureRequest) (items : list.Value → List α)
    (x : Except CaptureError Unit) (poll : Poll) (evs : List (Event captureDesk)) : Prop :=
  (∃ error, evs = [⟨.request list, .error error⟩] ∧ x = .error error) ∨
  ∃ listed rounds, evs = ⟨.request list, .ok listed⟩ :: rounds.flatten ∧ x = .ok () ∧
    List.Forall₂ (fun a => Round (item a) (stageOf a)) (items listed) rounds ∧
    (poll.errors.map Prod.fst).Sublist ((items listed).map item)

theorem isolated_of_meets {item : α → UUID} {stageOf : α → String} {list : CaptureRequest} {items : list.Value → List α}
    {each : list.Value → Capture Poll Unit}
    (h : ∀ listed w, (each listed).Meets anyReply ⟨0, []⟩ (fun x poll' w' => x = .ok () ∧ ∃ rounds noted, w' = w ++ rounds.flatten ∧
      List.Forall₂ (fun a evs => Round (item a) (stageOf a) evs) (items listed) rounds ∧
      poll'.errors = [] ++ noted ∧ (noted.map Prod.fst).Sublist ((items listed).map item)) w)
    {evs : List (Event captureDesk)} {x : Except CaptureError Unit} {poll : Poll}
    (hruns : ((call list >>= each).start ⟨0, []⟩).Runs evs (.done (x, poll))) :
    Isolated item stageOf list items x poll evs := by
  have hmeets : (call list >>= each).Meets anyReply ⟨0, []⟩ (Isolated item stageOf list items) [] := by
    refine Act.Meets.bind (Q := fun x poll' w' => poll' = ⟨0, []⟩ ∧ w' = [⟨.request list, x⟩])
      (meets_call fun reply => ⟨rfl, rfl⟩) ?_ ?_
    · rintro listed poll₁ w₁ - ⟨rfl, rfl⟩
      refine (h listed _).mono ?_
      rintro x poll₂ w₂ - ⟨rfl, rounds, noted, rfl, hrounds, hnoted, hsub⟩
      refine Or.inr ⟨listed, rounds, rfl, rfl, hrounds, ?_⟩
      rw [hnoted]
      exact hsub
    · rintro error poll₁ w₁ - ⟨rfl, rfl⟩
      exact Or.inl ⟨error, rfl, rfl⟩
  have hdone := Program.Meets.of_runs_done hmeets hruns
  rwa [List.nil_append] at hdone

/-- In whatever way a poll of the live runs and a sweep of the halts are replied, one failing item never hides the others. -/
theorem polls_isolate (e : Service) (now : AwareDatetime) :
    (∀ evs x poll, ((captureDue e now).start ⟨0, []⟩).Runs evs (.done (x, poll)) →
      Isolated (·.runId) (fun _ => referencesStage) .listRuns (fun runs => runs.filter (polled now)) x poll evs) ∧
    ∀ evs x poll, ((sweepHaltRequests e now).start ⟨0, []⟩).Runs evs (.done (x, poll)) →
      Isolated (·.runId) (fun req => haltStage req.trigger) .pendingHaltRequests id x poll evs := by
  refine ⟨fun evs x poll hruns => ?_, fun evs x poll hruns => ?_⟩
  · refine isolated_of_meets (fun runs w => ?_) hruns
    refine meets_items (fun run => (quiet_captureLive (e := e) run.runId now).bind fun result => quiet_pure result.written)
      (fun run => ?_) runs ⟨0, []⟩ w
    by_cases hrecent : recent < now.instant - run.asOf.instant
    · have hpolled : polled now run ≠ true := fun h => hrecent.not_ge (of_decide_eq_true h)
      rw [if_pos hrecent, if_neg hpolled]
    · have hpolled : polled now run = true := decide_eq_true (not_lt.mp hrecent)
      rw [if_neg hrecent, if_pos hpolled]
  · refine isolated_of_meets (fun pending w => ?_) hruns
    have hall : pending.filter (fun _ => true) = pending := List.filter_true pending
    have hitems := @meets_items HaltReferenceRequest (·.runId) (fun req => haltStage req.trigger) _
      (fun req => quiet_resolveHalt (e := e) req now) (fun _ => true) _ (fun _ => (if_pos rfl).symm) pending ⟨0, []⟩ w
    rw [hall] at hitems
    exact hitems

theorem first_calls :
    (((captureDue firstService ⟨10, 0⟩).start ⟨0, []⟩).trace firstAnswer (World.opened 10)).length = 12 := by
  decide +kernel

/-- The first poll is one round. -/
theorem polls_isolate_first : ∃ listed rounds,
    ((captureDue firstService ⟨10, 0⟩).start ⟨0, []⟩).trace firstAnswer (World.opened 10) =
      ⟨.request .listRuns, .ok listed⟩ :: List.flatten rounds ∧
    List.Forall₂ (fun run => Round run.runId referencesStage) (listed.filter (polled ⟨10, 0⟩)) rounds := by
  have hruns := Program.runs_trace firstAnswer ((captureDue firstService ⟨10, 0⟩).start ⟨0, []⟩) (World.opened 10)
  rcases (polls_isolate firstService ⟨10, 0⟩).1 _ _ _ hruns with ⟨error, hrefused, -⟩ | ⟨listed, rounds, hevs, -, hrounds, -⟩
  · have hlength := first_calls
    rw [hrefused] at hlength
    cases hlength
  · exact ⟨listed, rounds, hevs, hrounds⟩

end ReferenceCapture
end AsymmetricCommittee
