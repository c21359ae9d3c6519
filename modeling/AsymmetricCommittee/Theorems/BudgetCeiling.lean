import AsymmetricCommittee.Orchestration.Billing
import AsymmetricCommittee.Contracts.Samples
import AsymmetricCommittee.Theorems.BatchAccounting
import AsymmetricCommittee.Theorems.PooledVerdicts

/-! The budget of a run: what its calls pay, who still sends once the ceiling is reached, and what an attempt that breached
    it stores. -/

namespace AsymmetricCommittee

/-! ### Programs without their results -/

namespace Spenders
variable {Q R K α : Type} [AddCommGroup K] [LinearOrder K]

omit [AddCommGroup K] [LinearOrder K] in
theorem cleared_void (p : Program (spending Q R K) α) : cleared p.void = cleared p := by
  rcases p with a | ⟨c, next⟩
  · rfl
  · cases c <;> rfl

omit [LinearOrder K] in
theorem owed_void (p : Program (spending Q R K) α) : owed p.void = owed p := by
  rcases p with a | ⟨c, next⟩
  · rfl
  · cases c <;> rfl

theorem Pays.void {price : R → Option K} {p : Program (spending Q R K) α} (h : Pays price p) : Pays price p.void := by
  induction p with
  | done a => trivial
  | call c next ih =>
    cases c with
    | exceeded =>
      refine ⟨fun b => ⟨ih b (h.1 b).1, ?_⟩, ?_⟩
      · exact (owed_void (next b)).trans (h.1 b).2
      · exact (cleared_void (next true)).trans h.2
    | send query =>
      intro r
      obtain ⟨hpays, hcleared, howed⟩ := h r
      exact ⟨ih r hpays, (cleared_void (next r)).trans hcleared, (owed_void (next r)).trans howed⟩
    | charge amount =>
      refine ⟨h.1, fun b => ?_⟩
      obtain ⟨hpays, hcleared, howed⟩ := h.2 b
      exact ⟨ih b hpays, (cleared_void (next b)).trans hcleared, (owed_void (next b)).trans howed⟩

end Spenders

/-! ### What the runner makes of an aborted call -/

namespace Runner
variable {K : Type} [Field K] [LinearOrder K] {b : Batch} {jobs : List (Job K)} {s s' : State K} {m : Move K}

/-- A call that ends so ends the batch with an exception. -/
def Outcome.Raises : Outcome K → Prop
  | .verdict _ _ _ telemetry => telemetry = none
  | .raised => True
  | _ => False

/-- What a move does to the aborted tasks, to the exception, and to the jobs that are called. -/
structure Moved (s s' : State K) (m : Move K) : Prop where
  aborted : ∃ more, s'.result.aborted = s.result.aborted ++ more ∧ ∀ i e, m = .finish i (.aborting e) → more ≠ []
  raised : s'.raised.isSome ↔ ∃ i o, m = .finish i o ∧ o.Raises
  calling : ∀ j : Nat, s.phases[j]? = some .calling → s'.phases[j]? = some .calling ∨ ∃ o, m = .finish j o

/-- A move that ends no call. -/
theorem moved_open {i : Nat} {phase : Phase} (hm : ∀ j o, m ≠ .finish j o) (hquiet : s'.raised.isSome = false)
    (hother : s.phases[i]? ≠ some .calling) (hphases : s'.phases = s.phases.set i phase)
    (haborted : ∃ more, s'.result.aborted = s.result.aborted ++ more) : Moved s s' m where
  aborted := by
    obtain ⟨more, hmore⟩ := haborted
    exact ⟨more, hmore, fun i e h => absurd h (hm i _)⟩
  raised := by
    constructor
    · intro h
      rw [hquiet] at h
      cases h
    · rintro ⟨j, o, h, -⟩
      exact absurd h (hm j o)
  calling j hj := by
    have hne : i ≠ j := by
      rintro rfl
      exact hother hj
    exact .inl (by rw [hphases, List.getElem?_set_ne hne, hj])

/-- A move that ends a call. -/
theorem moved_finish {i : Nat} {o : Outcome K} (hraised : s'.raised.isSome ↔ o.Raises)
    (hphases : s'.phases = s.phases.set i .finished)
    (haborted : ∃ more, s'.result.aborted = s.result.aborted ++ more ∧ ∀ e, o = .aborting e → more ≠ []) :
    Moved s s' (.finish i o) where
  aborted := by
    obtain ⟨more, hmore, hne⟩ := haborted
    refine ⟨more, hmore, fun j e h => hne e ?_⟩
    cases h
    rfl
  raised := by
    rw [hraised]
    constructor
    · exact fun h => ⟨i, o, rfl, h⟩
    · rintro ⟨j, o', h, hr⟩
      cases h
      exact hr
  calling j hj := by
    by_cases hij : i = j
    · exact .inr ⟨o, by rw [hij]⟩
    · exact .inl (by rw [hphases, List.getElem?_set_ne hij, hj])

theorem moved (h : move b jobs s m = some s') : Moved s s' m := by
  unfold move at h
  split at h
  · cases h
  next hnone =>
  have hquiet : s.raised.isSome = false := by simpa using hnone
  split at h
  · next i =>
    split at h
    · next job hjob hphase =>
      have hother : s.phases[i]? ≠ some .calling := by simp [hphase]
      split_ifs at h
      · cases h
        exact moved_open (fun _ _ h => nomatch h) hquiet hother rfl ⟨[], (List.append_nil _).symm⟩
      · cases h
        exact moved_open (fun _ _ h => nomatch h) hquiet hother rfl ⟨_, rfl⟩
      · cases h
        exact moved_open (fun _ _ h => nomatch h) hquiet hother rfl ⟨[], (List.append_nil _).symm⟩
    · cases h
  · next i =>
    split at h
    · next job hjob hphase =>
      have hother : s.phases[i]? ≠ some .calling := by simp [hphase]
      split_ifs at h
      · cases h
        exact moved_open (fun _ _ h => nomatch h) hquiet hother rfl ⟨_, rfl⟩
      · cases h
        exact moved_open (fun _ _ h => nomatch h) hquiet hother rfl ⟨[], (List.append_nil _).symm⟩
    · cases h
  · next i o =>
    have hfalse (o : Outcome K) (ho : ¬o.Raises) : s.raised.isSome ↔ o.Raises := by
      rw [hquiet]
      exact iff_of_false Bool.false_ne_true ho
    split at h
    · cases o with
      | verdict v costUsd cacheHit telemetry =>
        simp only at h
        split at h
        · cases h
          cases telemetry with
          | none => exact moved_finish (iff_of_true rfl rfl) rfl ⟨[], (List.append_nil _).symm, fun _ h => nomatch h⟩
          | some telemetry =>
            exact moved_finish (hfalse _ fun h => nomatch h) rfl ⟨[], (List.append_nil _).symm, fun _ h => nomatch h⟩
        · cases h
      | discarded costUsd reason =>
        cases h
        exact moved_finish (hfalse _ id) rfl ⟨[], (List.append_nil _).symm, fun _ h => nomatch h⟩
      | aborting e =>
        cases h
        exact moved_finish (hfalse _ id) rfl ⟨_, rfl, fun _ _ => List.cons_ne_nil _ _⟩
      | raised =>
        cases h
        exact moved_finish (iff_of_true rfl trivial) rfl ⟨[], (List.append_nil _).symm, fun _ h => nomatch h⟩
    · cases h

/-- What a schedule does to the aborted tasks and to the exception. -/
theorem moves_aborts {schedule : List (Move K)} (h : moves b jobs s schedule = some s') :
    (∃ more, s'.result.aborted = s.result.aborted ++ more ∧ ∀ i e, .finish i (.aborting e) ∈ schedule → more ≠ []) ∧
      ((∃ i o, .finish i o ∈ schedule ∧ o.Raises) → s'.raised.isSome) ∧
      (s'.raised.isSome → s.raised.isSome ∨ ∃ i o, .finish i o ∈ schedule ∧ o.Raises) := by
  induction schedule generalizing s with
  | nil =>
    cases h
    refine ⟨⟨[], (List.append_nil _).symm, fun _ _ h => nomatch h⟩, ?_, Or.inl⟩
    rintro ⟨i, o, h, -⟩
    cases h
  | cons m schedule ih =>
    obtain ⟨t, hm, hrest⟩ := Option.bind_eq_some_iff.mp h
    have hmoved := moved hm
    obtain ⟨more, hmore, hnonempty⟩ := hmoved.aborted
    obtain ⟨⟨more', hmore', hnonempty'⟩, hraises, hraised⟩ := ih hrest
    refine ⟨⟨more ++ more', by rw [hmore', hmore, List.append_assoc], fun i e hmem hnil => ?_⟩, ?_, fun hsome => ?_⟩
    · obtain ⟨hfirst, hlast⟩ := List.append_eq_nil_iff.mp hnil
      rcases List.mem_cons.mp hmem with heq | hmem
      · exact hnonempty i e heq.symm hfirst
      · exact hnonempty' i e hmem hlast
    · rintro ⟨i, o, hmem, hr⟩
      rcases List.mem_cons.mp hmem with heq | hmem
      · have hsome : t.raised.isSome := hmoved.raised.mpr ⟨i, o, heq.symm, hr⟩
        cases hs : s'.raised with
        | some e => rfl
        | none =>
          rw [moves_raised hrest hs] at hsome
          cases hsome
      · exact hraises ⟨i, o, hmem, hr⟩
    · rcases hraised hsome with ht | ⟨i, o, hmem, hr⟩
      · obtain ⟨i, o, heq, hr⟩ := hmoved.raised.mp ht
        exact .inr ⟨i, o, heq ▸ List.mem_cons_self, hr⟩
      · exact .inr ⟨i, o, List.mem_cons_of_mem m hmem, hr⟩

/-! ### A batch on the budget -/

section Batches
variable [IsStrictOrderedRing K] {env : Setting K} {lookup : Nat → Lookup K} {ceiling spent : K} {w w' : Working K}

theorem callBilled_ne_breach (job : Job K) (l : Lookup K) (letters : List String) :
    callBilled b env job l.cached l.latencyMs ≠ .done (.aborting .budgetExceeded, letters) := by
  unfold callBilled
  split
  · simp
  · rcases l.cached.bind (b.fromCache env job) with _ | (_ | hit)
    · simp [attemptsBilled]
    · simp
    · simp

/-- A batch at work: its moves are those of the runner; a call that is not at work was not begun, or its end was seen; and
    the calls pay for their replies. -/
structure Tracked (b : Batch) (env : Setting K) (jobs : List (Job K)) (spent : K) (w : Working K) : Prop where
  moves : moves b jobs (State.start jobs) w.schedule = some w.runner
  calls : ∀ (i : Nat) p, w.threads.calls[i]? = some p → w.runner.phases[i]? = some .calling ∨
    (∃ (job : Job K) (l : Lookup K), p = callBilled b env job l.cached l.latencyMs) ∨
    ∃ r : Outcome K × List String, p = .done r ∧ .finish i r.1 ∈ w.schedule
  paying : Spenders.Paying (fun _ => env.models.price) w.threads
  balance : Spenders.balance (fun _ => env.models.price) w.threads = spent
  spends : spent ≤ w.threads.spent

theorem tracked_start : Tracked b env jobs spent (.start b env jobs lookup spent) := by
  have hcalls (i : Nat) p (hp : (Working.start b env jobs lookup spent).threads.calls[i]? = some p) :
      ∃ job, p = callBilled b env job (lookup i).cached (lookup i).latencyMs := by
    obtain ⟨job, -, rfl⟩ : ∃ job, jobs[i]? = some job ∧ callBilled b env job (lookup i).cached (lookup i).latencyMs = p := by
      simpa [Working.start] using hp
    exact ⟨job, rfl⟩
  refine ⟨rfl, fun i p hp => ?_, fun i p hp => ?_, ?_, le_rfl⟩
  · obtain ⟨job, hp⟩ := hcalls i p hp
    exact .inr (.inl ⟨job, lookup i, hp⟩)
  · obtain ⟨job, rfl⟩ := hcalls i p hp
    exact (pays_callBilled _ _).1
  · have howing : (Working.start b env jobs lookup spent).threads.owing = 0 := by
      refine List.sum_eq_zero fun x hx => ?_
      obtain ⟨p, hp, rfl⟩ := List.mem_map.mp hx
      obtain ⟨i, hi⟩ := List.mem_iff_getElem?.mp hp
      obtain ⟨job, rfl⟩ := hcalls i p hi
      exact (pays_callBilled _ _).2.2
    rw [Spenders.balance, howing]
    simp [Working.start, Spenders.cost]

theorem Tracked.move {m : Move K} (h : Tracked b env jobs spent w) (hm : w.move b jobs m = some w')
    (hdone : ∀ i o, m = .finish i o → ∃ letters, w.threads.calls[i]? = some (.done (o, letters))) :
    Tracked b env jobs spent w' := by
  obtain ⟨s, hs, rfl⟩ := Option.map_eq_some_iff.mp hm
  refine ⟨?_, fun i p hp => ?_, h.paying, h.balance, h.spends⟩
  · show List.foldlM _ _ _ = _
    rw [List.foldlM_append]
    refine Option.bind_eq_some_iff.mpr ⟨w.runner, h.moves, ?_⟩
    exact Option.bind_eq_some_iff.mpr ⟨s, hs, rfl⟩
  · rcases h.calls i p hp with hcalling | hinitial | ⟨r, rfl, hfinish⟩
    · rcases (moved hs).calling i hcalling with hcalling | ⟨o, rfl⟩
      · exact .inl hcalling
      · obtain ⟨letters, hcall⟩ := hdone i o rfl
        obtain rfl := Option.some.inj (hp.symm.trans hcall)
        exact .inr (.inr ⟨_, rfl, List.mem_append_right _ (List.mem_singleton_self _)⟩)
    · exact .inr (.inl hinitial)
    · exact .inr (.inr ⟨r, rfl, List.mem_append_left _ hfinish⟩)

theorem Tracked.tick {t : Tick K} (h : Tracked b env jobs spent w) (ht : w.tick b jobs ceiling t = some w') :
    Tracked b env jobs spent w' := by
  cases t with
  | start i => exact h.move ht fun _ _ h => nomatch h
  | enter i => exact h.move ht fun _ _ h => nomatch h
  | call i reply =>
    simp only [Working.tick] at ht
    split at ht
    · next hcalling =>
      cases ht
      have hturn := Spenders.turned ceiling i h.paying reply
      refine ⟨h.moves, fun j p hp => ?_, hturn.paying, hturn.balance.trans h.balance, h.spends.trans hturn.spends⟩
      by_cases hj : j = i
      · exact .inl (hj ▸ hcalling)
      · exact h.calls j p ((hturn.others j hj).symm.trans hp)
    · cases ht
  | finish i =>
    simp only [Working.tick] at ht
    split at ht
    · next result hcall =>
      refine h.move ht fun j o heq => ?_
      cases heq
      exact ⟨result.2, hcall⟩
    · cases ht

theorem Tracked.run {ticks : List (Tick K)} (h : Tracked b env jobs spent w) (hrun : w.run b jobs ceiling ticks = some w') :
    Tracked b env jobs spent w' := by
  induction ticks generalizing w with
  | nil =>
    cases hrun
    exact h
  | cons t ticks ih =>
    obtain ⟨w₁, ht, hrest⟩ := Option.bind_eq_some_iff.mp hrun
    exact ih (h.tick ht) hrest

/-- A batch that is over has paid for every reply of a known price. -/
theorem over_pays (h : w.Over b jobs ceiling env spent) :
    w.threads.spent = spent + Spenders.cost (fun _ => env.models.price) w.threads.replies ∧ spent ≤ w.threads.spent := by
  obtain ⟨lookup, ticks, hrun, -, hsettled⟩ := h
  have htracked := tracked_start.run hrun
  have howing : w.threads.owing = 0 := by
    refine List.sum_eq_zero fun x hx => ?_
    obtain ⟨p, hp, rfl⟩ := List.mem_map.mp hx
    obtain ⟨i, hi⟩ := List.mem_iff_getElem?.mp hp
    rcases htracked.calls i p hi with hcalling | ⟨job, l, rfl⟩ | ⟨r, rfl, -⟩
    · obtain ⟨result, hdone⟩ := hsettled i hcalling
      obtain rfl := Option.some.inj (hi.symm.trans hdone)
      rfl
    · exact (pays_callBilled _ _).2.2
    · rfl
  have hbalance := htracked.balance
  rw [Spenders.balance, howing, add_zero] at hbalance
  exact ⟨sub_eq_iff_eq_add.mp hbalance, htracked.spends⟩

/-- A breach in a batch that did not raise is an aborted task. -/
theorem over_breached (h : w.Over b jobs ceiling env spent) (hbreached : w.Breached) :
    w.schedule ≠ [] ∧ ∀ {b' : Batch} {jobs' : List (Job K)} {s : State K},
      moves b' jobs' (State.start jobs') w.schedule = some s → s.raised = none → s.result.aborted ≠ [] := by
  obtain ⟨lookup, ticks, hrun, hover, hsettled⟩ := h
  have htracked := tracked_start.run hrun
  obtain ⟨i, letters, hcall⟩ := hbreached
  have hseen : (∃ i o, .finish i o ∈ w.schedule ∧ o.Raises) ∨ .finish i (.aborting .budgetExceeded) ∈ w.schedule := by
    rcases Bool.or_eq_true_iff.mp hover with hraised | hfinished
    · exact .inl (((moves_aborts htracked.moves).2.2 hraised).resolve_left Bool.false_ne_true)
    · rcases htracked.calls i _ hcall with hcalling | ⟨job, l, hinitial⟩ | ⟨r, hr, hfinish⟩
      · have hphase := List.all_eq_true.mp hfinished _ (List.mem_of_getElem? hcalling)
        cases of_decide_eq_true hphase
      · exact absurd hinitial.symm (callBilled_ne_breach job l letters)
      · cases hr
        exact .inr hfinish
  refine ⟨?_, fun {b' jobs' s} hmoves hquiet haborted => ?_⟩
  · rintro hnil
    rw [hnil] at hseen
    rcases hseen with ⟨_, _, hin, -⟩ | hin
    · cases hin
    · cases hin
  · obtain ⟨⟨more, hmore, hnonempty⟩, hraises, -⟩ := moves_aborts hmoves
    rcases hseen with hraise | hfinish
    · have hsome := hraises hraise
      rw [hquiet] at hsome
      cases hsome
    · rw [haborted] at hmore
      exact hnonempty i _ hfinish (List.append_eq_nil_iff.mp hmore.symm).2

end Batches

end Runner
/-! ### The CIO's call -/

namespace Cio
variable {K : Type} [Field K] [LinearOrder K] {env : Setting K} {book : ProposedBook K} {ceiling : Positive K} {base : K}

/-- What the CIO's replies cost. -/
def answersCost (models : ModelsConfig K) (answers : List (ChatResponse K)) : K :=
  (answers.map fun response => (strongPrice models (.ok response)).getD 0).sum

/-- The budget has what was spent before and what the replies of the talk cost. -/
def Talk.Paid (models : ModelsConfig K) (ceiling : Positive K) (base : K) (t : Talk K) : Prop :=
  t.budget = some ⟨ceiling, base + answersCost models t.answers⟩

theorem Talk.Paid.answered {t : Talk K} (h : t.Paid env.models ceiling base) {response : ChatResponse K}
    (hfree : strongPrice env.models (.ok response) = none) : (t.answered response).Paid env.models ceiling base := by
  have hsame : answersCost env.models (t.answered response).answers = answersCost env.models t.answers := by
    simp [answersCost, Talk.answered, Talk.called, hfree]
  rw [Talk.Paid, hsame]
  exact h

theorem Talk.Paid.charge {t : Talk K} (h : t.Paid env.models ceiling base) {response : ChatResponse K} {usd : K}
    (husd : strongPrice env.models (.ok response) = some usd) :
    ((t.answered response).charge usd).Paid env.models ceiling base := by
  have hmore : answersCost env.models (t.answered response).answers = answersCost env.models t.answers + usd := by
    simp [answersCost, Talk.answered, Talk.called, husd]
  show t.budget.map (·.charge usd) = some ⟨ceiling, base + answersCost env.models (t.answered response).answers⟩
  rw [h, hmore, ← add_assoc]
  rfl

variable [FloorRing K]

theorem paid_judge {served : ServedModel K} {content : String} {t : Talk K} (ht : t.Paid env.models ceiling base)
    {retry : Talk K → Except CioError (Result K) × Talk K}
    (h : ∀ t', t'.Paid env.models ceiling base → (retry t').2.Paid env.models ceiling base) :
    (judge env book served content t retry).2.Paid env.models ceiling base := by
  unfold judge
  rcases env.validate content with out | problem | _
  · dsimp only
    rcases applyCioDecision book out env.maxVetoPct with (⟨_, _⟩ | ⟨_, _⟩ | _) | approved
    · exact h _ ht
    · exact ht
    · exact h _ ht
    · exact ht
  · exact h _ ht
  · exact ht

theorem paid_attempts (n : Nat) {t : Talk K} (ht : t.Paid env.models ceiling base) :
    (attempts env book n t).2.Paid env.models ceiling base := by
  induction n generalizing t with
  | zero => exact ht
  | succ n ih =>
    unfold attempts
    split
    · exact ht
    rcases env.client t.messages with (e | _) | response
    · exact ht
    · exact ht
    · dsimp only
      cases hserved : env.models.modelForResponse response.model with
      | none => exact ht.answered (by simp [strongPrice, hserved])
      | some served =>
        dsimp only
        by_cases hstrong : served.slug ∉ (env.models.tier .strong).allSlugs
        · rw [if_pos hstrong]
          exact ht.answered (by simp [strongPrice, hserved, hstrong])
        · rw [if_neg hstrong]
          cases hcost : served.callCost response.usage with
          | none => exact ht.answered (by simp [strongPrice, hserved, hcost])
          | some usd =>
            have hcharged : ((t.answered response).charge usd).Paid env.models ceiling base :=
              ht.charge (by simp [strongPrice, hserved, hcost, not_not.mp hstrong])
            dsimp only
            split
            · exact hcharged
            · exact paid_judge hcharged fun t' ht' => ih ht'

/-- The CIO's call pays for every reply of its tier whose usage is known. -/
theorem paid_runCio (env : Setting K) (book : ProposedBook K) (ceiling : Positive K) (base : K) :
    (runCio env book (some ⟨ceiling, base⟩)).2.Paid env.models ceiling base := by
  have hstart (messages : List Message) : Talk.Paid env.models ceiling base ⟨messages, 0, some ⟨ceiling, base⟩, [], 0, []⟩ := by
    rw [Talk.Paid, answersCost, List.map_nil, List.sum_nil, add_zero]
  unfold runCio
  dsimp only
  split
  · exact hstart _
  · exact paid_attempts 2 (hstart _)

omit [FloorRing K] in
theorem answersCost_nonneg [IsStrictOrderedRing K] (models : ModelsConfig K) (answers : List (ChatResponse K)) :
    0 ≤ answersCost models answers := by
  refine List.sum_nonneg fun x hx => ?_
  obtain ⟨response, -, rfl⟩ := List.mem_map.mp hx
  dsimp only [strongPrice]
  cases models.modelForResponse response.model with
  | none => exact le_rfl
  | some served =>
    rw [Option.bind_some]
    split
    · exact le_rfl
    · cases hcost : served.callCost response.usage with
      | none => exact le_rfl
      | some usd => exact Runner.callCost_nonneg hcost

end Cio

/-! ### What an attempt flushes -/

namespace Pipeline
open Partitions (EntityData)
open Runner (TaskKey Move Working)
variable {K : Type} [Field K] [LinearOrder K] {fl : PyFloat K} {py : PyText} {fns : Pooling.PoolFns K}
  {sha256 : String → Sha256Hex} {F : Json.FloatText K} {cfg : PipelineConfig K} {s : Surroundings K} {a a' : Attempt K}
  {step : StepArtifacts K (Verdict K)}

theorem runRecord_cost {status : RunStatus} {reason : Option String} {run : RunRecord K}
    (h : runRecord cfg s a status reason = .ok run) : run.totalCostUsd = s.spentUsd := by
  unfold runRecord at h
  simp only at h
  split at h
  · cases h
    rfl
  · cases h

theorem artifacts_run {run : RunRecord K} {verdicts : List (VerdictRecord K (Verdict K))}
    {decisions : List (CommitteeDecisionRecord K)} {portfolio : Option (PortfolioSnapshot K)}
    {commitment : Option DecisionCommitment} {dlq : List DlqRecord}
    (h : artifacts run verdicts decisions portfolio commitment dlq = .ok step) : step.run = run := by
  unfold artifacts at h
  split at h
  · cases h
    rfl
  · cases h

/-- What is flushed without a book stores what was spent. -/
theorem unfinished_cost {status : RunStatus} {complete : Bool} {reason : String}
    (h : unfinished cfg s a status complete reason = .ok step) : step.run.totalCostUsd = s.spentUsd := by
  obtain ⟨run, hrun, h⟩ := Except.bind_eq_ok.mp h
  obtain ⟨verdicts, -, h⟩ := Except.bind_eq_ok.mp h
  rw [artifacts_run h]
  exact runRecord_cost hrun

theorem commit_cost {pooled : List (SecurityId × PooledForecast K)} {bear : Dict Int (Option BearSeverity)}
    {cio : CioResult K} {calibrated : Bool} (h : commit fns sha256 F cfg s a pooled bear cio calibrated = .ok step) :
    step.run.totalCostUsd = s.spentUsd := by
  obtain ⟨records, -, h⟩ := Except.bind_eq_ok.mp h
  obtain ⟨snapshot, -, h⟩ := Except.bind_eq_ok.mp h
  obtain ⟨run, hrun, h⟩ := Except.bind_eq_ok.mp h
  obtain ⟨verdicts, -, h⟩ := Except.bind_eq_ok.mp h
  split at h
  · cases h
  · rw [artifacts_run h]
    exact runRecord_cost hrun

variable [FloorRing K]

omit [FloorRing K] in
/-- A book that is flushed was sized and put to the CIO, and an aborted call of the CIO leaves the step PARTIAL. -/
theorem bookStage_sized {pooled : List (SecurityId × PooledForecast K)}
    (h : bookStage fns sha256 F cfg s a pooled = .ok step) :
    step.run.totalCostUsd = s.spentUsd ∧ ∃ book, sizedBook fns cfg s a pooled = .ok book ∧
      ∀ name, s.cio book = .aborted name → step.run.status = .partialRun := by
  unfold bookStage at h
  obtain ⟨fit, hfit, h⟩ := Except.bind_eq_ok.mp h
  obtain ⟨bear, hbear, h⟩ := Except.bind_eq_ok.mp h
  simp only at h
  split at h
  · cases h
  next book hbook =>
  have hsized : sizedBook fns cfg s a pooled = .ok book := by
    refine Except.bind_eq_ok.mpr ⟨fit, hfit, Except.bind_eq_ok.mpr ⟨bear, hbear, ?_⟩⟩
    simp only [hbook]
    rfl
  split at h
  · cases h
  · exact ⟨unfinished_cost h, book, hsized, fun _ _ => unfinished_status h⟩
  · next cio hcio =>
    have hno : ∀ name, s.cio book = .aborted name → step.run.status = .partialRun := by
      intro name hname
      rw [hcio] at hname
      cases hname
    split at h
    · exact ⟨unfinished_cost h, book, hsized, hno⟩
    · exact ⟨commit_cost h, book, hsized, hno⟩

theorem callAgents_moves {entities : List (EntityData K)} {ids : List SecurityId} {done : List TaskKey}
    {schedule : List (Move K)} {r : Runner.Result K}
    (h : (callAgents fl py cfg s entities ids done schedule).run.run a = (.ok r, a')) :
    ∃ b jobs st, Runner.moves b jobs (Runner.State.start jobs) schedule = some st ∧ st.raised = none ∧ r = st.result := by
  obtain ⟨a₀, t, hget, h⟩ := bind_eq_ok.mp h
  cases hget
  split at h
  · cases h
  · cases h
  next batch hbatch =>
  obtain ⟨⟨⟩, t, hcollect, h⟩ := bind_eq_ok.mp h
  split at h
  · cases h
  next hraised =>
  obtain ⟨⟨⟩, t, htelemetry, h⟩ := bind_eq_ok.mp h
  cases h
  unfold Runner.runAgents at hbatch
  split at hbatch
  · cases hbatch
  next jobs hjobs =>
  obtain ⟨st, hst, heq⟩ := Option.map_eq_some_iff.mp hbatch
  cases heq
  exact ⟨_, jobs, batch, (Option.filter_eq_some_iff.mp hst).1, hraised, rfl⟩

/-- What an execution that flushes went through: a batch that ended it PARTIAL, or both batches and the CIO's call. -/
theorem execute_asked (h : (execute fl py fns sha256 F cfg s).run.run a = (.ok step, a')) :
    step.run.totalCostUsd = s.spentUsd ∧ ∃ first a₁, (votingStage fl py cfg s).run.run a = (.ok first, a₁) ∧
      (first.status = .partialRun → step.run.status = .partialRun) ∧
      (first.status ≠ .partialRun → ∃ redIds keys second a₂,
        (redTeamStage fl py cfg s redIds keys).run.run a₁ = (.ok second, a₂) ∧
        (second = .partialRun → step.run.status = .partialRun)) ∧
      ∀ book name, askedBook fl py fns cfg s a = some book → s.cio book = .aborted name → step.run.status = .partialRun := by
  unfold execute at h
  obtain ⟨seeded, t, hget, h⟩ := bind_eq_ok.mp h
  cases hget
  obtain ⟨first, a₁, hfirst, h⟩ := bind_eq_ok.mp h
  obtain ⟨t, t', hget, h⟩ := bind_eq_ok.mp h
  cases hget
  by_cases hstops : first.status = .partialRun
  · rw [if_pos hstops, ofExcept_run] at h
    have hstep := (Prod.mk.inj h).1
    exact ⟨unfinished_cost hstep, first, a₁, hfirst, fun _ => unfinished_status hstep, fun hne => absurd hstops hne,
      fun _ _ _ _ => unfinished_status hstep⟩
  · rw [if_neg hstops] at h
    obtain ⟨pooled, t, hpooled, h⟩ := bind_eq_ok.mp h
    obtain ⟨redIds, t', hred, h⟩ := bind_eq_ok.mp h
    obtain ⟨second, a₂, hsecond, h⟩ := bind_eq_ok.mp h
    obtain ⟨t₂, t₃, hget, h⟩ := bind_eq_ok.mp h
    cases hget
    have hthird : t' = a₁ := by
      rw [ofExcept_run] at hpooled hred
      exact (Prod.mk.inj hred).2.symm.trans (Prod.mk.inj hpooled).2.symm
    by_cases hlast : second = .partialRun
    · rw [if_pos hlast, ofExcept_run] at h
      have hstep := (Prod.mk.inj h).1
      exact ⟨unfinished_cost hstep, first, a₁, hfirst, fun hp => absurd hp hstops,
        fun _ => ⟨redIds, _, second, a₂, hthird ▸ hsecond, fun _ => unfinished_status hstep⟩,
        fun _ _ _ _ => unfinished_status hstep⟩
    · rw [if_neg hlast, ofExcept_run] at h
      obtain ⟨hcost, book, hsized, haborted⟩ := bookStage_sized (Prod.mk.inj h).1
      have hasked : (asked fl py fns cfg s).run.run a = (.ok (some book), a₂) := by
        unfold asked
        refine bind_eq_ok.mpr ⟨_, _, rfl, bind_eq_ok.mpr ⟨first, a₁, hfirst, bind_eq_ok.mpr ⟨_, _, rfl, ?_⟩⟩⟩
        rw [if_neg hstops]
        refine bind_eq_ok.mpr ⟨pooled, t, hpooled, bind_eq_ok.mpr ⟨redIds, t', hred, bind_eq_ok.mpr ⟨second, a₂, hsecond, ?_⟩⟩⟩
        refine bind_eq_ok.mpr ⟨_, _, rfl, ?_⟩
        rw [if_neg hlast, ofExcept_run, hsized]
        rfl
      refine ⟨hcost, first, a₁, hfirst, fun hp => absurd hp hstops,
        fun _ => ⟨redIds, _, second, a₂, hthird ▸ hsecond, fun hp => absurd hp hlast⟩, fun book' name hbook' hname => ?_⟩
      have hsame : askedBook fl py fns cfg s a = some book := by
        unfold askedBook
        rw [hasked]
      obtain rfl := Option.some.inj (hsame.symm.trans hbook')
      exact haborted name hname

/-! ### What the tables keep of the cost -/

section Tables
variable {json : AuditJson K} {db db' : RunTables K (Verdict K)} {runId : UUID} {asOf : AwareDatetime}

/-- `total_cost_usd` of the stored run; a run that is not stored has cost nothing. -/
def storedCost (db : RunTables K (Verdict K)) (runId : UUID) : K := (db.run? runId).elim 0 (·.totalCostUsd.val)

omit [FloorRing K] in
/-- A flush stores the cost and the status of its step, or leaves both. -/
theorem flush_stores (h : Sink.flushStep sha256 json db step = .ok db') (runId : UUID) :
    (storedCost db' runId = storedCost db runId ∧ db'.status? runId = db.status? runId) ∨
      (storedCost db' runId = step.run.totalCostUsd.val ∧ db'.status? runId = some step.run.status) := by
  have hrow := (Sink.flushStep_eq_ok h).run? runId
  unfold storedCost RunTables.status?
  rw [hrow]
  split
  · cases hstored : db.run? runId with
    | none => exact .inr ⟨rfl, rfl⟩
    | some stored =>
      by_cases hallowed : Store.upsertAllowed stored step.run.status
      · rw [Sink.flushedRow, if_pos hallowed]
        exact .inr ⟨rfl, rfl⟩
      · rw [Sink.flushedRow, if_neg hallowed]
        exact .inl ⟨rfl, rfl⟩
  · exact .inl ⟨rfl, rfl⟩

omit [FloorRing K] in
theorem recordFailure_stores (e : PipelineError) (runId : UUID) :
    (storedCost (recordFailure sha256 cfg s json db a e) runId = storedCost db runId ∧
        (recordFailure sha256 cfg s json db a e).status? runId = db.status? runId) ∨
      (storedCost (recordFailure sha256 cfg s json db a e) runId = s.spentUsd.val ∧
        (recordFailure sha256 cfg s json db a e).status? runId = some .failed) := by
  unfold recordFailure
  split
  · exact .inl ⟨rfl, rfl⟩
  · next step hstep =>
    rw [Sink.step, Sink.perform]
    cases hflush : Sink.flushStep sha256 json db step with
    | error e => exact .inl ⟨rfl, rfl⟩
    | ok db' =>
      rcases flush_stores hflush runId with hsame | ⟨hcost, hstatus⟩
      · exact .inl hsame
      · exact .inr ⟨by rw [hcost, unfinished_cost hstep], by rw [hstatus, unfinished_status hstep]⟩

variable (fl py fns sha256 F json) in
/-- What an attempt leaves: the tables as they were, or what it has spent under the status of its step, which is FAILED if
    it raised. -/
theorem runStep_stores (hbegin : begin_ cfg s db runId asOf = .ok (some a)) :
    (storedCost (runStep fl py fns sha256 F cfg s json db runId asOf).1 runId = storedCost db runId ∧
        (runStep fl py fns sha256 F cfg s json db runId asOf).1.status? runId = db.status? runId) ∨
      (storedCost (runStep fl py fns sha256 F cfg s json db runId asOf).1 runId = s.spentUsd.val ∧
        match (runStep fl py fns sha256 F cfg s json db runId asOf).2 with
        | .ok none => False
        | .ok (some step) => (runStep fl py fns sha256 F cfg s json db runId asOf).1.status? runId = some step.run.status
        | .error _ => (runStep fl py fns sha256 F cfg s json db runId asOf).1.status? runId = some .failed) := by
  unfold runStep
  rw [hbegin]
  dsimp only
  rcases hexecute : (execute fl py fns sha256 F cfg s).run.run a with ⟨e | step, a'⟩
  · dsimp only
    exact recordFailure_stores e runId
  · dsimp only
    cases hflush : Sink.flushStep sha256 json db step with
    | error e =>
      dsimp only
      exact recordFailure_stores (.store e) runId
    | ok db' =>
      rcases flush_stores hflush runId with hsame | ⟨hcost, hstatus⟩
      · exact .inl hsame
      · exact .inr ⟨by rw [hcost, (execute_asked hexecute).1], hstatus⟩

omit [FloorRing K] in
theorem begin_not_committed (hbegin : begin_ cfg s db runId asOf = .ok (some a)) : db.status? runId ≠ some .committed := by
  intro hstatus
  obtain ⟨prior, hprior, hcommitted⟩ := Option.map_eq_some_iff.mp hstatus
  unfold begin_ at hbegin
  rw [hprior] at hbegin
  dsimp only at hbegin
  split at hbegin
  · cases hbegin
  · rw [if_pos (.inr (by rw [hcommitted]; decide))] at hbegin
    cases hbegin

end Tables

/-! ### The calls of a run and its attempts -/

section Ceiling
variable [IsStrictOrderedRing K]

/-- A call on the budget of a run: an agent's or the CIO's. -/
inductive SharedCall (K : Type) [Field K] [LinearOrder K] where
  | agent (b : Runner.Batch) (env : Runner.Setting K) (job : Runner.Job K) (lookup : Runner.Lookup K)
  | cio (env : Cio.Setting K) (book : ProposedBook K)

namespace SharedCall

def program : SharedCall K → OnBudget K Unit
  | .agent b env job lookup => (Runner.callBilled b env job lookup.cached lookup.latencyMs).void
  | .cio env book => (Cio.runCioBilled env book).void

def models : SharedCall K → ModelsConfig K
  | .agent _ env _ _ => env.models
  | .cio env _ => env.models

/-- What the call pays for a reply. -/
def pays : SharedCall K → ClientReply K → Option K
  | .agent _ env _ _ => env.models.price
  | .cio env _ => Cio.strongPrice env.models

theorem pays_program (call : SharedCall K) :
    Spenders.Pays call.pays call.program ∧ Spenders.owed call.program = 0 := by
  cases call with
  | agent b env job lookup =>
    have hcall : Spenders.Pays env.models.price (Runner.callBilled b env job lookup.cached lookup.latencyMs) ∧ _ ∧ _ :=
      Runner.pays_callBilled _ _
    exact ⟨hcall.1.void, (Spenders.owed_void _).trans hcall.2.2⟩
  | cio env book =>
    obtain ⟨hpays, -, howed⟩ := Cio.pays_runCioBilled env book
    exact ⟨hpays.void, (Spenders.owed_void _).trans howed⟩

end SharedCall

/-- Calls that share the budget, before the first of them does anything. -/
def sharing (prior : K) (calls : List (SharedCall K)) : Spenders (List Message) (ClientReply K) K Unit :=
  ⟨prior, calls.map SharedCall.program, []⟩

/-- A reply that no model outside the CIO's tier gave. -/
def InTier (models : ModelsConfig K) (reply : ClientReply K) : Prop :=
  ∀ response served, reply = .ok response → models.modelForResponse response.model = some served →
    served.slug ∈ (models.tier .strong).allSlugs

/-- The replies to the CIO's calls come from its tier. -/
def CioInTier (calls : List (SharedCall K)) (replies : List (Nat × ClientReply K)) : Prop :=
  ∀ x ∈ replies, ∀ env book, calls[x.1]? = some (.cio env book) → InTier env.models x.2

omit [FloorRing K] [IsStrictOrderedRing K] in
theorem strongPrice_eq {models : ModelsConfig K} {reply : ClientReply K} (h : InTier models reply) :
    Cio.strongPrice models reply = models.price reply := by
  rcases reply with e | response
  · rfl
  · dsimp only [Cio.strongPrice, ModelsConfig.price]
    cases hserved : models.modelForResponse response.model with
    | none => rfl
    | some served =>
      rw [Option.bind_some, Option.bind_some, if_neg (not_not.mpr (h response served rfl hserved))]

/-- The price of a reply to a call; none is not known. -/
def priceOf (calls : List (SharedCall K)) (i : Nat) (reply : ClientReply K) : Option K :=
  (calls[i]?).bind fun call => call.models.price reply

/-- What was spent, and what is owed for the replies that are being read, is what was spent before and the price of every
    reply. -/
def Accounted (prior : K) (calls : List (SharedCall K)) (s : Spenders (List Message) (ClientReply K) K Unit) : Prop :=
  s.spent + s.owing = prior + Spenders.cost (priceOf calls) s.replies

/-- Once the ceiling is reached, in whatever order the calls go on, only those send that are past their check then, and each
    of them once. -/
def LastSends (ceiling : Positive K) (s : Spenders (List Message) (ClientReply K) K Unit) : Prop :=
  ceiling.val ≤ s.spent → ∀ turns, ∃ later, (s.run ceiling.val turns).replies = s.replies ++ later ∧
    (later.map Prod.fst).Nodup ∧ ∀ x ∈ later, ∃ p, s.calls[x.1]? = some p ∧ Spenders.cleared p = true

/-- The prices that the calls pay. -/
def paidOf (calls : List (SharedCall K)) (i : Nat) (reply : ClientReply K) : Option K :=
  (calls[i]?).bind fun call => call.pays reply

theorem paying_sharing (prior : K) (calls : List (SharedCall K)) :
    Spenders.Paying (paidOf calls) (sharing prior calls) ∧ Spenders.balance (paidOf calls) (sharing prior calls) = prior := by
  have hcalls (i : Nat) p (hp : (sharing prior calls).calls[i]? = some p) : ∃ call, calls[i]? = some call ∧ call.program = p := by
    simpa [sharing] using hp
  refine ⟨fun i p hp => ?_, ?_⟩
  · obtain ⟨call, hcall, rfl⟩ := hcalls i p hp
    have hprices : paidOf calls i = call.pays := by
      funext reply
      rw [paidOf, hcall, Option.bind_some]
    exact hprices ▸ call.pays_program.1
  · have howing : (sharing prior calls).owing = 0 := by
      refine List.sum_eq_zero fun x hx => ?_
      obtain ⟨p, hp, rfl⟩ := List.mem_map.mp hx
      obtain ⟨call, -, rfl⟩ := List.mem_map.mp hp
      exact call.pays_program.2
    rw [Spenders.balance, howing]
    simp [sharing, Spenders.cost]

/-- In every interleaving the budget accounts for every reply. -/
theorem sharing_accounted {ceiling : Positive K} (prior : K) (calls : List (SharedCall K)) (turns : List (Nat × ClientReply K))
    (hcio : CioInTier calls ((sharing prior calls).run ceiling.val turns).replies) :
    Accounted prior calls ((sharing prior calls).run ceiling.val turns) := by
  obtain ⟨hpaying, hbalance⟩ := paying_sharing prior calls
  have hsame : Spenders.cost (paidOf calls) ((sharing prior calls).run ceiling.val turns).replies =
      Spenders.cost (priceOf calls) ((sharing prior calls).run ceiling.val turns).replies := by
    refine congrArg List.sum (List.map_congr_left fun x hx => ?_)
    unfold paidOf priceOf
    rcases hcall : calls[x.1]? with _ | (_ | ⟨env, book⟩)
    · rfl
    · rfl
    · exact congrArg (·.getD 0) (strongPrice_eq (hcio x hx env book hcall))
  have hrun := Spenders.balance_run ceiling.val hpaying turns
  rw [hbalance, Spenders.balance, hsame] at hrun
  exact sub_eq_iff_eq_add.mp hrun

theorem sharing_lastSends {ceiling : Positive K} (prior : K) (calls : List (SharedCall K)) (turns : List (Nat × ClientReply K)) :
    LastSends ceiling ((sharing prior calls).run ceiling.val turns) := fun hceiling turns' =>
  Spenders.run_sends ((paying_sharing prior calls).1.run turns) hceiling turns'

variable {env : Runner.Setting K} {cio : Cio.Setting K} {ceiling : Positive K} {before : K} {first second : Working K}

/-- The replies to the CIO come from its tier. -/
def AskedInTier (fl : PyFloat K) (py : PyText) (fns : Pooling.PoolFns K) (cfg : PipelineConfig K) (cio : Cio.Setting K)
    (ceiling : Positive K) (a : Attempt K) (s : Surroundings K) (second : Working K) : Prop :=
  ∀ book, askedBook fl py fns cfg s a = some book →
    ∀ response ∈ (cioCall cio ceiling second book).2.answers, InTier cio.models (.ok response)

omit [FloorRing K] [IsStrictOrderedRing K] in
theorem cost_eq_sum (models : ModelsConfig K) (replies : List (Nat × ClientReply K)) :
    Spenders.cost (fun _ => models.price) replies = ((replies.map Prod.snd).map fun r => (models.price r).getD 0).sum := by
  rw [List.map_map]
  rfl

/-- What an attempt has spent that asked the CIO. -/
theorem Billed.spent_asked (h : Billed fl py fns cfg env cio ceiling a s before first second) {book : ProposedBook K}
    (hasked : askedBook fl py fns cfg s a = some book) : s.spentUsd.val =
      second.threads.spent + Cio.answersCost cio.models (cioCall cio ceiling second book).2.answers := by
  have hspent := h.spent
  have hpaid : (cioCall cio ceiling second book).2.budget = _ := Cio.paid_runCio cio book ceiling second.threads.spent
  rw [hasked] at hspent
  dsimp only at hspent
  rw [hpaid] at hspent
  exact Option.some.inj hspent

/-- What an attempt has spent is what was spent before and the price of every reply. -/
theorem Billed.accounted (h : Billed fl py fns cfg env cio ceiling a s before first second)
    (htier : AskedInTier fl py fns cfg cio ceiling a s second) :
    s.spentUsd.val = before + ((replies fl py fns cfg cio ceiling a s first second).map fun r =>
      (env.models.price r).getD 0).sum := by
  obtain ⟨jobs, -, hfirst⟩ := h.first_over
  obtain ⟨ids, done, jobs', -, hsecond⟩ := h.second_over
  have hagents : second.threads.spent = before + ((first.threads.replies.map Prod.snd).map fun r =>
      (env.models.price r).getD 0).sum + ((second.threads.replies.map Prod.snd).map fun r =>
      (env.models.price r).getD 0).sum := by
    rw [(Runner.over_pays hsecond).1, (Runner.over_pays hfirst).1, cost_eq_sum, cost_eq_sum]
  have hspent := h.spent
  unfold replies
  rw [List.map_append, List.map_append, List.sum_append, List.sum_append]
  cases hasked : askedBook fl py fns cfg s a with
  | none =>
    rw [hasked] at hspent
    rw [Option.some.inj hspent, hagents, Option.elim_none, List.map_nil, List.sum_nil, add_zero, add_assoc]
  | some book =>
    have hcost : Cio.answersCost cio.models (cioCall cio ceiling second book).2.answers =
        (((cioCall cio ceiling second book).2.answers.map (Except.ok : ChatResponse K → ClientReply K)).map fun r =>
          (env.models.price r).getD 0).sum := by
      rw [List.map_map, Cio.answersCost]
      refine congrArg List.sum (List.map_congr_left fun response hresponse => ?_)
      rw [Function.comp_apply, ← h.models, strongPrice_eq (htier book hasked response hresponse)]
    rw [h.spent_asked hasked, hcost, hagents, Option.elim_some]
    simp only [add_assoc]

theorem Billed.spends (h : Billed fl py fns cfg env cio ceiling a s before first second) : before ≤ s.spentUsd.val := by
  obtain ⟨jobs, -, hfirst⟩ := h.first_over
  obtain ⟨ids, done, jobs', -, hsecond⟩ := h.second_over
  have hagents := (Runner.over_pays hfirst).2.trans (Runner.over_pays hsecond).2
  have hspent := h.spent
  cases hasked : askedBook fl py fns cfg s a with
  | none =>
    rw [hasked] at hspent
    exact hagents.trans_eq (Option.some.inj hspent).symm
  | some book =>
    rw [h.spent_asked hasked]
    exact hagents.trans (le_add_of_nonneg_right (Cio.answersCost_nonneg _ _))

/-- A call of the attempt ended with the exception of the budget. -/
def Breach (fl : PyFloat K) (py : PyText) (fns : Pooling.PoolFns K) (cfg : PipelineConfig K) (cio : Cio.Setting K)
    (ceiling : Positive K) (a : Attempt K) (s : Surroundings K) (first second : Working K) : Prop :=
  first.Breached ∨ second.Breached ∨ ∃ book, askedBook fl py fns cfg s a = some book ∧
    (cioCall cio ceiling second book).1 = .error .budgetExceeded

omit [FloorRing K] [IsStrictOrderedRing K] in
theorem status_of_aborted {r : Runner.Result K} (h : r.aborted ≠ []) : r.status = .partialRun := if_pos (.inl h)

/-- An attempt with a breach that returns has flushed a PARTIAL run. -/
theorem Billed.breach (h : Billed fl py fns cfg env cio ceiling a s before first second)
    (hbreach : Breach fl py fns cfg cio ceiling a s first second)
    (hexecute : (execute fl py fns sha256 F cfg s).run.run a = (.ok step, a')) : step.run.status = .partialRun := by
  obtain ⟨-, result, a₁, hvoting, hfirst, hsecond, hasked⟩ := execute_asked hexecute
  rcases hbreach with hbreached | hbreached | ⟨book, hbook, herror⟩
  · obtain ⟨jobs, -, hover⟩ := h.first_over
    obtain ⟨-, haborted⟩ := Runner.over_breached hover hbreached
    obtain ⟨t, t', hget, hcall⟩ := bind_eq_ok.mp hvoting
    obtain ⟨b, jobs', st, hmoves, hquiet, rfl⟩ := callAgents_moves hcall
    rw [h.first_schedule] at hmoves
    exact hfirst (status_of_aborted (haborted hmoves hquiet))
  · by_cases hstops : result.status = .partialRun
    · exact hfirst hstops
    · obtain ⟨ids, done, jobs, -, hover⟩ := h.second_over
      obtain ⟨hnonempty, haborted⟩ := Runner.over_breached hover hbreached
      rw [← h.second_schedule] at hnonempty
      obtain ⟨redIds, keys, status, a₂, hred, hstatus⟩ := hsecond hstops
      unfold redTeamStage at hred
      split at hred
      · rw [if_neg (by simpa using hnonempty)] at hred
        cases hred
      · obtain ⟨r, t, hcall, hret⟩ := bind_eq_ok.mp hred
        cases hret
        obtain ⟨b, jobs', st, hmoves, hquiet, rfl⟩ := callAgents_moves hcall
        rw [h.second_schedule] at hmoves
        exact hstatus (status_of_aborted (haborted hmoves hquiet))
  · refine hasked book "BudgetExceededError" hbook ?_
    rw [h.cio_reply, herror]
    rfl

/-- One attempt at a run whose calls are billed, or a run that is returned as it is. -/
def Resumes (fl : PyFloat K) (py : PyText) (fns : Pooling.PoolFns K) (sha256 : String → Sha256Hex) (F : Json.FloatText K)
    (json : AuditJson K) (runId : UUID) (db db' : RunTables K (Verdict K)) : Prop :=
  ∃ cfg env cio ceiling s asOf, db' = (runStep fl py fns sha256 F cfg s json db runId asOf).1 ∧
    ∀ a, begin_ cfg s db runId asOf = .ok (some a) →
      ∃ first second, Billed fl py fns cfg env cio ceiling a s (storedCost db runId) first second

theorem resumes_cost {json : AuditJson K} {runId : UUID} {db db' : RunTables K (Verdict K)}
    (h : Resumes fl py fns sha256 F json runId db db') : storedCost db runId ≤ storedCost db' runId := by
  obtain ⟨cfg, env, cio, ceiling, s, asOf, rfl, hbilled⟩ := h
  rcases hbegin : begin_ cfg s db runId asOf with e | _ | a
  · unfold runStep
    rw [hbegin]
  · unfold runStep
    rw [hbegin]
  · obtain ⟨first, second, hbill⟩ := hbilled a hbegin
    rcases runStep_stores fl py fns sha256 F json hbegin with
      ⟨hsame, -⟩ | ⟨hcost, -⟩
    · exact hsame.ge
    · exact hbill.spends.trans_eq hcost.symm

/-- The budget of a run is a ceiling with full accounting: its calls pay for their replies in every order, once the ceiling
    is reached no call that is not past its check sends, a breach leaves the run PARTIAL, or FAILED when a call also raises,
    and the stored cost does not decrease. -/
theorem budget_is_ceiling (fl : PyFloat K) (py : PyText) (fns : Pooling.PoolFns K) (sha256 : String → Sha256Hex)
    (F : Json.FloatText K) (json : AuditJson K) (ceiling : Positive K) :
    (∀ prior (calls : List (SharedCall K)) turns,
      (CioInTier calls ((sharing prior calls).run ceiling.val turns).replies →
        Accounted prior calls ((sharing prior calls).run ceiling.val turns)) ∧
      LastSends ceiling ((sharing prior calls).run ceiling.val turns)) ∧
    (∀ cfg env cio s db runId asOf a first second, begin_ cfg s db runId asOf = .ok (some a) →
      Billed fl py fns cfg env cio ceiling a s (storedCost db runId) first second →
      (AskedInTier fl py fns cfg cio ceiling a s second → s.spentUsd.val = storedCost db runId +
        ((replies fl py fns cfg cio ceiling a s first second).map fun r => (env.models.price r).getD 0).sum) ∧
      (storedCost (runStep fl py fns sha256 F cfg s json db runId asOf).1 runId = storedCost db runId ∨
        storedCost (runStep fl py fns sha256 F cfg s json db runId asOf).1 runId = s.spentUsd.val) ∧
      (Breach fl py fns cfg cio ceiling a s first second →
        (∀ step, (runStep fl py fns sha256 F cfg s json db runId asOf).2 = .ok (some step) →
          step.run.status = .partialRun) ∧
        (∀ e, (runStep fl py fns sha256 F cfg s json db runId asOf).2 = .error e →
          (runStep fl py fns sha256 F cfg s json db runId asOf).1.status? runId = db.status? runId ∨
            (runStep fl py fns sha256 F cfg s json db runId asOf).1.status? runId = some .failed) ∧
        (runStep fl py fns sha256 F cfg s json db runId asOf).1.status? runId ≠ some .committed)) ∧
    ∀ runId db db', Relation.ReflTransGen (Resumes fl py fns sha256 F json runId) db db' →
      storedCost db runId ≤ storedCost db' runId := by
  refine ⟨fun prior calls turns => ⟨sharing_accounted prior calls turns, sharing_lastSends prior calls turns⟩,
    fun cfg env cio s db runId asOf a first second hbegin hbilled => ⟨hbilled.accounted, ?_, fun hbreach => ?_⟩,
    fun runId db db' hruns => ?_⟩
  · exact (runStep_stores fl py fns sha256 F json hbegin).imp And.left And.left
  · have hstops : ∀ step, (runStep fl py fns sha256 F cfg s json db runId asOf).2 = .ok (some step) →
        step.run.status = .partialRun := by
      intro step hstep
      unfold runStep at hstep
      rw [hbegin] at hstep
      dsimp only at hstep
      split at hstep
      · cases hstep
      · next step' a' hexecute =>
        split at hstep
        · cases hstep
        · cases hstep
          exact hbilled.breach hbreach hexecute
    have hstores := runStep_stores fl py fns sha256 F json hbegin
    refine ⟨hstops, fun e herror => ?_, fun hcommitted => ?_⟩
    · rcases hstores with ⟨-, hsame⟩ | ⟨-, hstatus⟩
      · exact .inl hsame
      · rw [herror] at hstatus
        exact .inr hstatus
    · rcases hstores with ⟨-, hsame⟩ | ⟨-, hstatus⟩
      · exact begin_not_committed hbegin (hsame.symm.trans hcommitted)
      · rcases hresult : (runStep fl py fns sha256 F cfg s json db runId asOf).2 with e | _ | step
        · rw [hresult, hcommitted] at hstatus
          cases hstatus
        · rw [hresult] at hstatus
          exact hstatus
        · rw [hresult, hcommitted] at hstatus
          have hcommit : RunStatus.committed = step.run.status := Option.some.inj hstatus
          rw [hstops step hresult] at hcommit
          cases hcommit
  · induction hruns with
    | refl => exact le_rfl
    | tail _ hstep ih => exact ih.trans (resumes_cost hstep)

end Ceiling

/-! ### A call that reaches the ceiling -/

section Sample
open Partitions (onePartitioner oneSecurity plainFloat plainText)
open Runner (Batch Job Tick makeJobs silentSetting)

def oneDollar : Positive ℚ := ⟨1, Samples.one_positive ℚ⟩

/-- A reply that costs the whole budget, with a text that cannot be read. -/
def dearReply : ClientReply ℚ := .ok ⟨"m", "", some ⟨none, none, some ⟨1, Samples.nonNegative_one ℚ⟩⟩⟩

def freshBatch : Batch := ⟨⟨1⟩, [], 16⟩

/-- The jobs of one security. -/
def oneJobs : List (Job ℚ) :=
  match makeJobs plainFloat plainText onePartitioner [oneSecurity] [] with
  | .ok jobs => jobs
  | .error _ => []

def beginning (jobs : List (Job ℚ)) (spent : ℚ) : Working ℚ :=
  .start freshBatch silentSetting jobs (fun _ => ⟨none, 0⟩) spent

/-- The first batch of a run, as it goes on. -/
def workingAfter (ticks : List (Tick ℚ)) : Option (Working ℚ) :=
  (beginning oneJobs 0).run freshBatch oneJobs 1 ticks

/-- One call is begun, and its reply costs what there is. -/
def dearCall (i : Nat) : List (Tick ℚ) := [.call i dearReply, .call i dearReply, .call i dearReply]

/-- The first call breaches the budget, and the others are not begun. -/
def breachAlone : List (Tick ℚ) := [.start 0, .enter 0] ++ dearCall 0 ++ [.finish 0, .start 1, .start 2, .start 3, .start 4]

/-- The first call breaches the budget while the client of the second one fails. -/
def breachBeside : List (Tick ℚ) :=
  [.start 0, .enter 0, .start 1, .enter 1, .call 1 dearReply] ++ dearCall 0 ++ [.call 1 (.error .other), .finish 1]

def hasEnded (w : Working ℚ) (i : Nat) : Bool :=
  match w.threads.calls[i]? with
  | some (.done _) => true
  | _ => false

def hasBreached (w : Working ℚ) (i : Nat) : Bool :=
  match w.threads.calls[i]? with
  | some (.done (.aborting .budgetExceeded, _)) => true
  | _ => false

/-- The batch is over, a dollar is spent, and its first call breached. -/
def endsAsSaid (w : Working ℚ) : Bool :=
  w.runner.over && decide (w.threads.spent = 1) && hasBreached w 0 &&
    (List.range w.runner.phases.length).all fun i => hasEnded w i || decide (w.runner.phases[i]? ≠ some .calling)

def oneCio : Cio.Setting ℚ := Cio.oneSetting 3 0.2

/-- The attempt of a new run that meets a first batch and no other. -/
def meeting (w : Working ℚ) : Surroundings ℚ :=
  { lateAnswer with
    first := w.schedule
    second := []
    cio := fun book => cioReply (cioCall oneCio oneDollar (beginning [] w.threads.spent) book).1
    spentUsd := ⟨1, zero_le_one⟩ }

def oneAttempt : Attempt ℚ := ⟨⟨1⟩, ⟨Renderer.day, 0⟩, ⟨Renderer.day, 0⟩, [], [], [], []⟩

def neverAsks (w : Working ℚ) : Bool := (askedBook plainFloat plainText evenFns oneConfig (meeting w) oneAttempt).isNone

theorem oneJobs_made : makeJobs plainFloat plainText onePartitioner [oneSecurity] [] = .ok oneJobs := by
  have hok : (makeJobs plainFloat plainText onePartitioner [oneSecurity] []).isOk = true := by decide
  unfold oneJobs
  cases hjobs : makeJobs plainFloat plainText onePartitioner [oneSecurity] [] with
  | ok jobs => rfl
  | error e =>
    rw [hjobs] at hok
    cases hok

theorem billed_meeting {ticks : List (Tick ℚ)} {w : Working ℚ} (hrun : workingAfter ticks = some w) (hends : endsAsSaid w = true)
    (hnever : neverAsks w = true) :
    Billed plainFloat plainText evenFns oneConfig silentSetting oneCio oneDollar oneAttempt (meeting w)
        (storedCost oneTables ⟨1⟩) w (beginning [] w.threads.spent) ∧
      Breach plainFloat plainText evenFns oneConfig oneCio oneDollar oneAttempt (meeting w) w (beginning [] w.threads.spent) := by
  simp only [endsAsSaid, Bool.and_eq_true, decide_eq_true_eq, List.all_eq_true, List.mem_range, Bool.or_eq_true] at hends
  obtain ⟨⟨⟨hover, hspent⟩, hbreached⟩, hended⟩ := hends
  have hsettled : w.Settled := by
    intro i hcalling
    have hend := (hended i (List.getElem?_eq_some_iff.mp hcalling).1).resolve_right fun hne => hne hcalling
    unfold hasEnded at hend
    split at hend
    · next result hresult => exact ⟨result, hresult⟩
    · cases hend
  have hnone : askedBook plainFloat plainText evenFns oneConfig (meeting w) oneAttempt = none := Option.isNone_iff_eq_none.mp hnever
  refine ⟨⟨⟨oneJobs, .inl oneJobs_made, _, ticks, hrun, hover, hsettled⟩, rfl, ⟨[], [], [], .inr rfl, _, [], rfl, rfl, ?_⟩, rfl, rfl,
    fun _ => rfl, ?_⟩, .inl ?_⟩
  · intro i hcalling
    cases hcalling
  · rw [hnone]
    exact congrArg some hspent.symm
  · unfold hasBreached at hbreached
    split at hbreached
    · next letters hcall => exact ⟨0, letters, hcall⟩
    · cases hbreached

/-- The step of a new run with a first batch. -/
def oneStep (w : Working ℚ) : RunTables ℚ (Verdict ℚ) × Except PipelineError (Option (StepArtifacts ℚ (Verdict ℚ))) :=
  runStep plainFloat plainText evenFns (fun _ => Sink.zeroHex) decimalText oneConfig (meeting w) Sink.noJson oneTables ⟨1⟩
    ⟨Renderer.day, 0⟩

/-- The step returns its artifacts. -/
def returnsStep : RunTables ℚ (Verdict ℚ) × Except PipelineError (Option (StepArtifacts ℚ (Verdict ℚ))) → Bool
  | (_, .ok (some _)) => true
  | _ => false

/-- A breach alone leaves the run PARTIAL. -/
theorem budget_is_ceiling_alone : ∃ w db step, workingAfter breachAlone = some w ∧ oneStep w = (db, .ok (some step)) ∧
    step.run.status = .partialRun ∧ db.status? ⟨1⟩ ≠ some .committed := by
  have hsample : (workingAfter breachAlone).any (fun w => endsAsSaid w && neverAsks w && returnsStep (oneStep w)) =
      true := by decide +kernel
  obtain ⟨w, hrun, hsample⟩ := (Option.any_eq_true _ _).mp hsample
  rw [Bool.and_eq_true, Bool.and_eq_true] at hsample
  obtain ⟨⟨hends, hnever⟩, hreturns⟩ := hsample
  obtain ⟨hbilled, hbreach⟩ := billed_meeting hrun hends hnever
  obtain ⟨-, -, hstops⟩ := (budget_is_ceiling plainFloat plainText evenFns (fun _ => Sink.zeroHex) decimalText Sink.noJson
    oneDollar).2.1 oneConfig silentSetting oneCio (meeting w) oneTables ⟨1⟩ ⟨Renderer.day, 0⟩ oneAttempt w _ rfl hbilled
  obtain ⟨hstatus, -, hcommitted⟩ := hstops hbreach
  rcases hstep : oneStep w with ⟨db, e | (_ | step)⟩
  · rw [hstep] at hreturns
    cases hreturns
  · rw [hstep] at hreturns
    cases hreturns
  · refine ⟨w, db, step, hrun, hstep, hstatus step (congrArg Prod.snd hstep), ?_⟩
    have hdb := congrArg Prod.fst hstep
    exact fun h => hcommitted ((congrArg (fun t => RunTables.status? t ⟨1⟩) hdb).trans h)

/-- A breach beside a call that raises leaves it FAILED. -/
theorem breach_not_partial : ¬∀ (cfg : PipelineConfig ℚ) env cio ceiling s (db : RunTables ℚ (Verdict ℚ)) runId asOf a first second,
    begin_ cfg s db runId asOf = .ok (some a) →
    Billed plainFloat plainText evenFns cfg env cio ceiling a s (storedCost db runId) first second →
    Breach plainFloat plainText evenFns cfg cio ceiling a s first second →
    (runStep plainFloat plainText evenFns (fun _ => Sink.zeroHex) decimalText cfg s Sink.noJson db runId asOf).1.status? runId =
      some .partialRun := by
  intro hall
  have hsample : (workingAfter breachBeside).any (fun w => endsAsSaid w && neverAsks w &&
      decide ((oneStep w).1.status? ⟨1⟩ = some .failed)) = true := by decide +kernel
  obtain ⟨w, hrun, hsample⟩ := (Option.any_eq_true _ _).mp hsample
  rw [Bool.and_eq_true, Bool.and_eq_true] at hsample
  obtain ⟨⟨hends, hnever⟩, hfailed⟩ := hsample
  obtain ⟨hbilled, hbreach⟩ := billed_meeting hrun hends hnever
  have hstops := hall oneConfig silentSetting oneCio oneDollar (meeting w) oneTables ⟨1⟩ ⟨Renderer.day, 0⟩ oneAttempt w _ rfl
    hbilled hbreach
  have hsame : some RunStatus.failed = some RunStatus.partialRun := (of_decide_eq_true hfailed).symm.trans hstops
  cases hsame

end Sample

end Pipeline
end AsymmetricCommittee
