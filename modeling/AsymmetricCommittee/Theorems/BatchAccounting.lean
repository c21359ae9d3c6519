import AsymmetricCommittee.Agents.AgentCall
import AsymmetricCommittee.Contracts.Samples
import AsymmetricCommittee.Theorems.BatchRuns
import AsymmetricCommittee.Theorems.CioVetoes
import AsymmetricCommittee.Theorems.PartitionBoundaries

/-! The batch runner accounts for every job. A move ends at most one job, and enters it under its key in exactly one of
    the four parts of the result; a dead letter is pushed by the call or by the runner, never by both. -/

namespace AsymmetricCommittee
namespace Runner
open Partitions (EntityData Partition Partitioner)

variable {K : Type} [Field K] [LinearOrder K]

/-! ### The dead letters of one call -/

/-- A call pushes a dead letter when it is dead-lettered or the budget ends it, and its verdict is its job's. -/
def Lettered (b : Batch) (job : Job K) (r : Outcome K × List String) : Prop :=
  match r.1 with
  | .verdict v _ _ telemetry => b.Envelops job v ∧ telemetry.isSome ∧ r.2 = []
  | .discarded _ reason => r.2.length = if reason = some .deadLettered then 1 else 0
  | .aborting e => r.2.length = if e = .budgetExceeded then 1 else 0
  | .raised => r.2 = []

theorem envelope_envelops {b : Batch} {env : Setting K} {job : Job K} {out : VerdictLLM K} {served : ServedModel K}
    {v : Verdict K} (h : b.envelope env job out served = some v) : b.Envelops job v := by
  unfold Batch.envelope at h
  split at h
  · split at h
    · split at h
      · next hred =>
        cases h
        exact ⟨hred.symm, rfl, rfl, rfl⟩
      · cases h
    · split at h
      · cases h
        exact ⟨rfl, rfl, rfl, rfl⟩
      · cases h
  · cases h

section Call
variable {b : Batch} {env : Setting K} {job : Job K} {met : Met K}

theorem lettered_judge {served : ServedModel K} {content : String} {t : Trial K} {retry : Trial K → Outcome K × List String}
    (hretry : ∀ t : Trial K, t.reason ≠ .deadLettered → Lettered b job (retry t)) :
    Lettered b job (judge b env job met served content t retry) := by
  unfold judge
  split
  · exact rfl
  · exact hretry _ (by simp [Trial.reject])
  · dsimp only
    split
    · split
      · exact rfl
      · next v hv => exact ⟨envelope_envelops hv, rfl, rfl⟩
    · exact hretry _ (by simp [Trial.reject])

variable [IsStrictOrderedRing K]

/-- The attempts that are left; the reason of a rejected reply is never that of a dead letter. -/
theorem lettered_attempts (n : Nat) {t : Trial K} (ht : t.reason ≠ .deadLettered) :
    Lettered b job (attempts b env job met n t) := by
  induction n generalizing t with
  | zero => simp [attempts, Lettered, ht]
  | succ n ih =>
    unfold attempts
    split
    · simp [Lettered]
    · split
      · simp [Lettered]
      · simp [Lettered]
      · split
        · simp [Lettered]
        · split
          · simp [Lettered]
          · dsimp only
            split
            · simp [Lettered]
            · exact lettered_judge fun t ht => ih ht

/-- What a call ends with says which dead letters it has pushed. -/
theorem lettered_runAgentCall : Lettered b job (runAgentCall b env job met) := by
  unfold runAgentCall
  split
  · exact rfl
  · split
    · next hit hhit =>
      obtain ⟨entry, -, hentry⟩ := Option.bind_eq_some_iff.mp hhit
      unfold Batch.fromCache at hentry
      split at hentry
      · cases hentry
      · split at hentry
        · exact ⟨envelope_envelops (Option.some.inj hentry), rfl, rfl⟩
        · cases hentry
    · exact rfl
    · exact lettered_attempts 2 (by simp)

end Call

/-! ### The keys of the finished jobs -/

/-- The keys of the jobs that are finished. -/
def finishedKeys (b : Batch) : List (Job K) → List Phase → List TaskKey
  | job :: jobs, phase :: phases => (if phase = .finished then [b.key job] else []) ++ finishedKeys b jobs phases
  | _, _ => []

section Keys
variable {b : Batch} {jobs : List (Job K)} {phases : List Phase} {i : Nat} {job : Job K} {old : Phase}

/-- A job that goes on without ending leaves the finished keys as they are. -/
theorem finishedKeys_open {phase : Phase} (hold : phases[i]? = some old) (hopen : old ≠ .finished)
    (hphase : phase ≠ .finished) : finishedKeys b jobs (phases.set i phase) = finishedKeys b jobs phases := by
  induction phases generalizing jobs i with
  | nil => rfl
  | cons p phases ih =>
    cases jobs with
    | nil => cases i <;> rfl
    | cons job jobs =>
      cases i with
      | zero =>
        obtain rfl : p = old := Option.some.inj hold
        simp [finishedKeys, hopen, hphase]
      | succ i => simp only [List.set_cons_succ, finishedKeys, ih hold]

/-- A job that ends adds its key. -/
theorem finishedKeys_finish (hjob : jobs[i]? = some job) (hold : phases[i]? = some old) (hopen : old ≠ .finished) (k : TaskKey) :
    (finishedKeys b jobs (phases.set i .finished)).count k = (finishedKeys b jobs phases).count k + [b.key job].count k := by
  induction phases generalizing jobs i with
  | nil => cases hold
  | cons p phases ih =>
    cases jobs with
    | nil => cases hjob
    | cons j jobs =>
      cases i with
      | zero =>
        obtain rfl : p = old := Option.some.inj hold
        obtain rfl : j = job := Option.some.inj hjob
        simp only [List.set_cons_zero, finishedKeys, if_neg hopen, ↓reduceIte, List.count_append, List.nil_append]
        exact Nat.add_comm _ _
      | succ i =>
        have hrest : (finishedKeys b jobs (phases.set i .finished)).count k =
            (finishedKeys b jobs phases).count k + [b.key job].count k := ih hjob hold
        simp only [List.set_cons_succ, finishedKeys, List.count_append, hrest]
        exact (Nat.add_assoc _ _ _).symm

theorem finishedKeys_start : finishedKeys b jobs (jobs.map fun _ => Phase.waiting) = [] := by
  induction jobs with
  | nil => rfl
  | cons job jobs ih => exact ih

theorem finishedKeys_all (hlen : phases.length = jobs.length) (hall : ∀ p ∈ phases, p = .finished) :
    finishedKeys b jobs phases = jobs.map b.key := by
  induction jobs generalizing phases with
  | nil => cases phases <;> rfl
  | cons job jobs ih =>
    cases phases with
    | nil => cases hlen
    | cons p phases =>
      obtain rfl : p = .finished := hall p List.mem_cons_self
      simp only [finishedKeys, ↓reduceIte, List.map_cons, List.singleton_append]
      rw [ih (Nat.succ.inj hlen) fun p hp => hall p (List.mem_cons_of_mem _ hp)]

end Keys

/-! ### One move -/

/-- What is accounted for so far, with the dead letters that the calls have pushed. -/
structure Ledger (b : Batch) (jobs : List (Job K)) (s : State K) (letters : List (Job K × String)) : Prop where
  length : s.phases.length = jobs.length
  keys : ∀ k, s.result.completed.count k + s.result.skipped.count k + (s.result.discarded.map Prod.fst).count k +
    (s.result.aborted.map Prod.fst).count k = (finishedKeys b jobs s.phases).count k
  telemetry : s.result.telemetry.map Prod.fst = s.result.completed
  letters : ∀ k, ((s.deadLetters ++ letters).map fun l => b.key l.1).count k = (s.result.aborted.map Prod.fst).count k +
    ((s.result.discarded.filter fun d => d.2 = "dead_lettered").map Prod.fst).count k

theorem ledger_start {b : Batch} {jobs : List (Job K)} : Ledger b jobs (State.start jobs) [] where
  length := List.length_map _
  keys k := by
    dsimp only [State.start]
    rw [finishedKeys_start]
    rfl
  telemetry := rfl
  letters k := by simp [State.start]

section Moves
variable {b : Batch} {jobs : List (Job K)} {s s' : State K} {letters : List (Job K × String)} {i : Nat} {job : Job K} {old : Phase}

/-- A job that goes on without ending. -/
theorem Ledger.goOn (h : Ledger b jobs s letters) {phase : Phase} (hold : s.phases[i]? = some old) (hopen : old ≠ .finished)
    (hphase : phase ≠ .finished) : Ledger b jobs (s.setPhase i phase) letters where
  length := (List.length_set ..).trans h.length
  keys k := (h.keys k).trans (congrArg (List.count k) (finishedKeys_open hold hopen hphase).symm)
  telemetry := h.telemetry
  letters := h.letters

/-- What the end of a job adds to the parts of the result, and the dead letters it goes with. -/
structure Ends (b : Batch) (job : Job K) (s s' : State K) (i : Nat) (pushed : List (Job K × String)) : Prop where
  phases : s'.phases = s.phases.set i .finished
  keys : ∀ k, s'.result.completed.count k + s'.result.skipped.count k + (s'.result.discarded.map Prod.fst).count k +
      (s'.result.aborted.map Prod.fst).count k =
    s.result.completed.count k + s.result.skipped.count k + (s.result.discarded.map Prod.fst).count k +
      (s.result.aborted.map Prod.fst).count k + [b.key job].count k
  telemetry : s.result.telemetry.map Prod.fst = s.result.completed → s'.result.telemetry.map Prod.fst = s'.result.completed
  letters : ∀ k, (s'.deadLetters.map fun l => b.key l.1).count k + (pushed.map fun l => b.key l.1).count k +
      ((s.result.aborted.map Prod.fst).count k +
        ((s.result.discarded.filter fun d => d.2 = "dead_lettered").map Prod.fst).count k) =
    (s.deadLetters.map fun l => b.key l.1).count k + ((s'.result.aborted.map Prod.fst).count k +
      ((s'.result.discarded.filter fun d => d.2 = "dead_lettered").map Prod.fst).count k)

theorem Ledger.ends (h : Ledger b jobs s letters) (hjob : jobs[i]? = some job) (hold : s.phases[i]? = some old)
    (hopen : old ≠ .finished) {pushed : List (Job K × String)} (he : Ends b job s s' i pushed) :
    Ledger b jobs s' (letters ++ pushed) where
  length := by rw [he.phases, List.length_set, h.length]
  keys k := by rw [he.keys, h.keys, he.phases, finishedKeys_finish hjob hold hopen]
  telemetry := he.telemetry h.telemetry
  letters k := by
    have hbefore := h.letters k
    have hstep := he.letters k
    simp only [List.map_append, List.count_append] at hbefore ⊢
    omega

/-- A job that is skipped. -/
theorem ends_skip : Ends b job s
    { s.setPhase i .finished with result := { s.result with skipped := s.result.skipped ++ [b.key job] } } i [] where
  phases := rfl
  keys k := by
    simp only [List.count_append]
    omega
  telemetry h := h
  letters k := by simp [State.setPhase]

/-- A job that is not called any more, or whose call ended the run outside the budget: the runner pushes its letter. -/
theorem ends_abort (reason : String) : Ends b job s (s.abort i job (b.key job) reason) i [] where
  phases := rfl
  keys k := by
    simp only [State.abort, List.map_append, List.count_append, List.map_cons, List.map_nil]
    omega
  telemetry h := h
  letters k := by
    simp only [State.abort, List.map_append, List.count_append, List.map_cons, List.map_nil, List.count_nil]
    omega

/-- The discarded jobs of a reason that are dead letters. -/
theorem deadLettered_iff (reason : Option DiscardReason) :
    reason.elim "discarded" (·.value) = "dead_lettered" ↔ reason = some .deadLettered := by
  rcases reason with _ | _ | _ | _ <;> decide

theorem letters_keys (b : Batch) (job : Job K) (errors : List String) :
    (errors.map fun error => (job, error)).map (fun l => b.key l.1) = List.replicate errors.length (b.key job) := by
  simp [Function.comp_def]

/-- A call that ends, with the letters it has pushed: the runner pushes one exactly where the call did not. -/
theorem ends_finish {r : Outcome K × List String} (hr : Lettered b job r) (hraised : (s.finish i job (b.key job) r.1).raised = none) :
    Ends b job s (s.finish i job (b.key job) r.1) i (r.2.map fun error => (job, error)) := by
  obtain ⟨o, errors⟩ := r
  cases o with
  | verdict v costUsd cacheHit telemetry =>
    obtain ⟨-, htelemetry, hnone⟩ := hr
    obtain rfl : errors = [] := hnone
    cases telemetry with
    | none => cases htelemetry
    | some t =>
      refine ⟨rfl, fun k => ?_, fun h => ?_, fun k => ?_⟩
      · simp only [State.finish, List.count_append]
        omega
      · simp only [State.finish, List.map_append, h]
        rfl
      · simp [State.finish, State.setPhase]
  | discarded costUsd reason =>
    have herrors : errors.length = if reason = some .deadLettered then 1 else 0 := hr
    refine ⟨rfl, fun k => ?_, fun h => h, fun k => ?_⟩
    · simp only [State.finish, List.map_append, List.count_append, List.map_cons, List.map_nil]
      omega
    · rw [letters_keys, herrors]
      simp only [State.finish, State.setPhase, List.filter_append, List.map_append, List.count_append]
      by_cases hdead : reason = some .deadLettered
      · rw [if_pos hdead, List.filter_cons, if_pos (decide_eq_true ((deadLettered_iff reason).mpr hdead))]
        simp only [List.replicate_one, List.filter_nil, List.map_cons, List.map_nil]
        omega
      · rw [if_neg hdead, List.filter_cons, if_neg (fun h => hdead ((deadLettered_iff reason).mp (of_decide_eq_true h)))]
        simp only [List.replicate_zero, List.filter_nil, List.map_nil, List.count_nil]
        omega
  | aborting e =>
    have herrors : errors.length = if e = .budgetExceeded then 1 else 0 := hr
    refine ⟨rfl, fun k => ?_, fun h => h, fun k => ?_⟩
    · simp only [State.finish, List.map_append, List.count_append, List.map_cons, List.map_nil]
      omega
    · rw [letters_keys, herrors]
      simp only [State.finish, List.map_append, List.count_append, List.map_cons, List.map_nil]
      by_cases hbudget : e = .budgetExceeded
      · simp only [hbudget, ↓reduceIte, List.replicate_one, List.map_nil, List.count_nil]
        omega
      · simp only [hbudget, ↓reduceIte, List.replicate_zero, List.map_cons, List.map_nil, List.count_nil]
        omega
  | raised => cases hraised

end Moves

/-! ### A schedule of calls -/

section Turns
variable [IsStrictOrderedRing K] {b : Batch} {env : Setting K} {jobs : List (Job K)} {s s' : State K}
  {letters : List (Job K × String)}

/-- A turn that does not raise keeps the accounts, with the dead letters of its call. -/
theorem ledger_turn {t : Turn K} (h : Ledger b jobs s letters) (hm : move b jobs s (t.move b env jobs) = some s')
    (hr : s'.raised = none) : Ledger b jobs s' (letters ++ t.letters b env jobs) := by
  unfold move at hm
  split at hm
  · cases hm
  cases t with
  | start i =>
    simp only [Turn.move] at hm
    split at hm
    · next job hjob hphase =>
      split_ifs at hm with hdone hstop
      · cases hm
        exact h.ends hjob hphase (by decide) ends_skip
      · cases hm
        exact h.ends hjob hphase (by decide) (ends_abort _)
      · cases hm
        rw [Turn.letters, List.append_nil]
        exact h.goOn hphase (by decide) (by decide)
    · cases hm
  | enter i =>
    simp only [Turn.move] at hm
    split at hm
    · next job hjob hphase =>
      split_ifs at hm with hgate hstop
      · cases hm
        exact h.ends hjob hphase (by decide) (ends_abort _)
      · cases hm
        rw [Turn.letters, List.append_nil]
        exact h.goOn hphase (by decide) (by decide)
    · cases hm
  | finish i met =>
    cases hjob : jobs[i]? with
    | none => simp [Turn.move, hjob] at hm
    | some job =>
      have hcall : Lettered b job (runAgentCall b env job met) := lettered_runAgentCall
      simp only [Turn.move, Turn.letters, hjob] at hm ⊢
      split at hm
      · next job' hjob' hphase =>
        obtain rfl := Option.some.inj hjob'
        have hend : s' = s.finish i job (b.key job) (runAgentCall b env job met).1 := by
          split at hm
          · split at hm
            · exact (Option.some.inj hm).symm
            · cases hm
          · exact (Option.some.inj hm).symm
        subst hend
        exact h.ends hjob hphase (by decide) (ends_finish hcall hr)
      · cases hm

theorem ledger_turns {turns : List (Turn K)} (h : Ledger b jobs s letters)
    (hm : moves b jobs s (turns.map (Turn.move b env jobs)) = some s') (hr : s'.raised = none) :
    Ledger b jobs s' (letters ++ turns.flatMap (Turn.letters b env jobs)) := by
  induction turns generalizing s letters with
  | nil =>
    cases hm
    rwa [List.flatMap_nil, List.append_nil]
  | cons t turns ih =>
    obtain ⟨u, hstep, hrest⟩ := Option.bind_eq_some_iff.mp hm
    have hu := ledger_turn h hstep (moves_raised hrest hr)
    rw [List.flatMap_cons, ← List.append_assoc]
    exact ih hu hrest

end Turns

/-! ### The batch -/

/-- The keys of the four parts of a result. -/
def Result.keys (r : Result K) : List TaskKey :=
  r.completed ++ r.skipped ++ r.discarded.map Prod.fst ++ r.aborted.map Prod.fst

/-- The job was aborted, or its call was dead-lettered. -/
def Result.Lost (r : Result K) (k : TaskKey) : Prop := k ∈ r.aborted.map Prod.fst ∨ (k, "dead_lettered") ∈ r.discarded

instance (r : Result K) (k : TaskKey) : Decidable (r.Lost k) := inferInstanceAs (Decidable (_ ∨ _))

/-- What accounts for every job of a batch that returned: each job's key is in one part of the result, once; the sink was
    given one verdict for each completed key, which alone have telemetry; each lost job has one dead letter and no other
    job has any; and the status is PARTIAL iff a job is lost. -/
structure Accounts (b : Batch) (jobs : List (Job K)) (s : State K) (letters : List (Job K × String)) : Prop where
  once : ∀ job ∈ jobs, s.result.keys.count (b.key job) = 1
  only : ∀ k ∈ s.result.keys, ∃ job ∈ jobs, b.key job = k
  sunk : List.Forall₂ (fun k v => ∃ job ∈ jobs, b.key job = k ∧ b.Envelops job v) s.result.completed s.sunk
  telemetry : s.result.telemetry.map Prod.fst = s.result.completed
  letters : ∀ job ∈ jobs, (letters.map fun l => b.key l.1).count (b.key job) = if s.result.Lost (b.key job) then 1 else 0
  status : s.result.status = .partialRun ↔ ∃ job ∈ jobs, s.result.Lost (b.key job)

theorem key_nodup (b : Batch) {jobs : List (Job K)} (h : (jobs.map Job.id).Nodup) : (jobs.map b.key).Nodup := by
  refine List.Nodup.of_map (fun k : TaskKey => (k.securityId, k.stage)) ?_
  rw [List.map_map]
  exact h

section End
variable {b : Batch} {jobs : List (Job K)} {s : State K} {letters : List (Job K × String)}

/-- At the end each job's key is in the result once. -/
theorem Ledger.count_keys (h : Ledger b jobs s letters) (hall : ∀ p ∈ s.phases, p = .finished) (k : TaskKey) :
    s.result.keys.count k = (jobs.map b.key).count k := by
  rw [← finishedKeys_all h.length hall, ← h.keys k]
  simp only [Result.keys, List.count_append]

/-- A key is in the letters as often as its job is lost, which is at most once. -/
theorem Ledger.count_letters (h : Ledger b jobs s letters) {k : TaskKey} (honce : s.result.keys.count k = 1) :
    ((s.deadLetters ++ letters).map fun l => b.key l.1).count k = if s.result.Lost k then 1 else 0 := by
  rw [h.letters]
  have hdead : ((s.result.discarded.filter fun d => d.2 = "dead_lettered").map Prod.fst).count k ≤
      (s.result.discarded.map Prod.fst).count k := (List.filter_sublist.map Prod.fst).count_le k
  have hmem : k ∈ (s.result.discarded.filter fun d => d.2 = "dead_lettered").map Prod.fst ↔
      (k, "dead_lettered") ∈ s.result.discarded := by
    simp
  simp only [Result.keys, List.count_append] at honce
  split
  · next hlost =>
    rcases hlost with haborted | hdiscarded
    · have hpos := List.count_pos_iff.mpr haborted
      omega
    · have hpos := List.count_pos_iff.mpr (hmem.mpr hdiscarded)
      omega
  · next hkept =>
    obtain ⟨haborted, hdiscarded⟩ := not_or.mp hkept
    rw [List.count_eq_zero.mpr haborted, List.count_eq_zero.mpr (mt hmem.mp hdiscarded)]

/-- The accounts at the end of a schedule that finished every job. -/
theorem accounts_of_ledger (hids : (jobs.map Job.id).Nodup) (h : Ledger b jobs s letters)
    (hall : ∀ p ∈ s.phases, p = .finished) {as : List (Answer K)} (has : Answers b jobs s as) :
    Accounts b jobs s (s.deadLetters ++ letters) := by
  have honce : ∀ job ∈ jobs, s.result.keys.count (b.key job) = 1 := fun job hjob => by
    rw [h.count_keys hall]
    exact List.count_eq_one_of_mem (key_nodup b hids) (List.mem_map_of_mem hjob)
  have honly : ∀ k ∈ s.result.keys, ∃ job ∈ jobs, b.key job = k := fun k hk => by
    have hpos := List.count_pos_iff.mpr hk
    rw [h.count_keys hall] at hpos
    exact List.mem_map.mp (List.count_pos_iff.mp hpos)
  refine ⟨honce, honly, ?_, h.telemetry, fun job hjob => h.count_letters (honce job hjob), ?_⟩
  · rw [has.completed, has.sunk, List.forall₂_map_left_iff, List.forall₂_map_right_iff, List.forall₂_same]
    intro a ha
    exact ⟨a.job, List.mem_of_getElem? (has.job a ha), rfl, has.envelops a ha⟩
  · constructor
    · intro hstatus
      have hsome : s.result.aborted ≠ [] ∨ ∃ d ∈ s.result.discarded, d.2 = "dead_lettered" := by
        by_contra hnone
        rw [Result.status, if_neg hnone] at hstatus
        cases hstatus
      rcases hsome with haborted | ⟨⟨k, reason⟩, hd, hreason⟩
      · obtain ⟨d, hd⟩ := List.exists_mem_of_ne_nil _ haborted
        have hmem : d.1 ∈ s.result.aborted.map Prod.fst := List.mem_map_of_mem hd
        obtain ⟨job, hjob, hkey⟩ := honly d.1 (List.mem_append_right _ hmem)
        exact ⟨job, hjob, .inl (hkey ▸ hmem)⟩
      · obtain rfl : reason = "dead_lettered" := hreason
        have hmem : k ∈ s.result.discarded.map Prod.fst := List.mem_map_of_mem (f := Prod.fst) hd
        obtain ⟨job, hjob, rfl⟩ := honly k (List.mem_append_left _ (List.mem_append_right _ hmem))
        exact ⟨job, hjob, .inr hd⟩
    · rintro ⟨job, -, hlost⟩
      refine if_pos ?_
      rcases hlost with haborted | hdiscarded
      · exact .inl fun hnil => by simp [hnil] at haborted
      · exact .inr ⟨_, hdiscarded, rfl⟩

end End

/-- A batch of calls over distinct securities that returns accounts for every job. -/
theorem runAgents_accounts [IsStrictOrderedRing K] [FloorRing K] {fl : PyFloat K} {py : PyText} {p : Partitioner K}
    {entities : List (EntityData K)} {ids : List SecurityId} {b : Batch} {env : Setting K} {jobs : List (Job K)}
    {turns : List (Turn K)} {s : State K} (hu : (entities.map (·.securityId)).Nodup)
    (hjobs : makeJobs fl py p entities ids = .ok jobs)
    (h : runAgents fl py p entities ids b (turns.map (Turn.move b env jobs)) = some (.ok s)) (hr : s.raised = none) :
    Accounts b jobs s (s.deadLetters ++ turns.flatMap (Turn.letters b env jobs)) := by
  unfold runAgents at h
  rw [hjobs] at h
  obtain ⟨t, ht, hs⟩ := Option.map_eq_some_iff.mp h
  cases hs
  obtain ⟨hm, hover⟩ := Option.filter_eq_some_iff.mp ht
  obtain ⟨-, hids⟩ := makeJobs_eq_ok hu hjobs
  obtain ⟨as, has, -⟩ := answers_moves answers_start hm hr
  have hledger := ledger_turns ledger_start hm hr
  rw [List.nil_append] at has hledger
  refine accounts_of_ledger hids hledger (fun p hp => ?_) has
  rw [State.over, hr] at hover
  exact of_decide_eq_true (List.all_eq_true.mp hover p hp)

/-! ### One security, and the same one twice -/

section Sample
open Partitions (onePartitioner oneSecurity plainFloat plainText)

def silentSetting : Setting ℚ :=
  ⟨Cio.oneModels, fun _ => .error none, fun _ => .error none, fun _ _ => true, fun _ => "", fun _ => ⟨"v1", Samples.label_v1⟩⟩

/-- A call that fails in transit, and one that an unknown model answers. -/
def timedOut : Met ℚ := ⟨none, fun _ => false, fun _ => false, fun _ _ => .error (.transient "timeout"), 0⟩

def answeredByOther : Met ℚ := ⟨none, fun _ => false, fun _ => false, fun _ _ => .ok ⟨"other", "", none⟩, 0⟩

def stageKey (agent : AgentName) : TaskKey := ⟨⟨1⟩, agent, oneSecurity.securityId⟩

/-- The technical agent has answered already; the others are still to be called. -/
def oneBatch : Batch := ⟨⟨1⟩, [stageKey .technical], 2⟩

/-- The first call times out, an unknown model answers the second, and the run stops. -/
def oneTurns : List (Turn ℚ) :=
  [.start 0, .start 1, .start 2, .enter 0, .enter 1, .finish 0 timedOut, .finish 1 answeredByOther, .enter 2, .start 3, .start 4]

/-- Only the value agent is still to be called. -/
def restBatch : Batch := ⟨⟨1⟩, [.qualityCatalyst, .insider, .technical, .macroNarrative].map stageKey, 2⟩

/-- The first of two calls of one key times out, and an unknown model answers the other. -/
def twiceTurns : List (Turn ℚ) :=
  [.start 0, .enter 0, .finish 0 timedOut, .start 5, .enter 5, .finish 5 answeredByOther] ++
    [1, 2, 3, 4, 6, 7, 8, 9].map Turn.start

/-- The jobs of a batch of the sample and its state at the end. -/
def sampleRun (entities : List (EntityData ℚ)) (b : Batch) (turns : List (Turn ℚ)) :
    Option (Except RunnerError (List (Job ℚ) × State ℚ)) :=
  match makeJobs plainFloat plainText onePartitioner entities [] with
  | .error e => some (.error e)
  | .ok jobs => (runAgents plainFloat plainText onePartitioner entities [] b
      (turns.map (Turn.move b silentSetting jobs))).map fun r => r.map fun s => (jobs, s)

theorem sampleRun_eq (entities : List (EntityData ℚ)) (b : Batch) (turns : List (Turn ℚ)) (p : List (Job ℚ) × State ℚ → Bool)
    (h : (match sampleRun entities b turns with
      | some (.ok r) => p r
      | _ => false) = true) :
    ∃ jobs s, makeJobs plainFloat plainText onePartitioner entities [] = .ok jobs ∧
      runAgents plainFloat plainText onePartitioner entities [] b (turns.map (Turn.move b silentSetting jobs)) =
        some (.ok s) ∧ p (jobs, s) = true := by
  split at h
  · next r hr =>
    unfold sampleRun at hr
    split at hr
    · cases hr
    · next jobs hjobs =>
      obtain ⟨e, he, hmap⟩ := Option.map_eq_some_iff.mp hr
      obtain ⟨s, hs, hpair⟩ := Except.map_eq_ok.mp hmap
      subst hpair hs
      exact ⟨jobs, s, hjobs, he, h⟩
  · cases h

theorem runAgents_accounts_one : ∃ jobs s, runAgents plainFloat plainText onePartitioner [oneSecurity] [] oneBatch
      (oneTurns.map (Turn.move oneBatch silentSetting jobs)) = some (.ok s) ∧
    Accounts oneBatch jobs s (s.deadLetters ++ oneTurns.flatMap (Turn.letters oneBatch silentSetting jobs)) := by
  obtain ⟨jobs, s, hjobs, hrun, hraised⟩ := sampleRun_eq [oneSecurity] oneBatch oneTurns
    (fun r => r.2.raised.isNone) (by decide)
  have hu : ([oneSecurity].map (·.securityId)).Nodup := List.nodup_singleton _
  exact ⟨jobs, s, hrun, runAgents_accounts hu hjobs hrun (Option.isNone_iff_eq_none.mp hraised)⟩

/-- A security that the batch is given twice has a job that is both discarded and aborted. -/
theorem runAgents_twice : ∃ jobs s, makeJobs plainFloat plainText onePartitioner [oneSecurity, oneSecurity] [] = .ok jobs ∧
    runAgents plainFloat plainText onePartitioner [oneSecurity, oneSecurity] [] restBatch
      (twiceTurns.map (Turn.move restBatch silentSetting jobs)) = some (.ok s) ∧ s.raised = none ∧
    ∃ job ∈ jobs, restBatch.key job ∈ s.result.discarded.map Prod.fst ∧ restBatch.key job ∈ s.result.aborted.map Prod.fst := by
  obtain ⟨jobs, s, hjobs, hrun, hfacts⟩ := sampleRun_eq [oneSecurity, oneSecurity] restBatch
    twiceTurns (fun r => r.2.raised.isNone && r.1.any fun job =>
      decide (restBatch.key job ∈ r.2.result.discarded.map Prod.fst ∧ restBatch.key job ∈ r.2.result.aborted.map Prod.fst))
    (by decide)
  obtain ⟨hraised, hjob⟩ := Bool.and_eq_true_iff.mp hfacts
  obtain ⟨job, hmem, hboth⟩ := List.any_eq_true.mp hjob
  exact ⟨jobs, s, hjobs, hrun, Option.isNone_iff_eq_none.mp hraised, job, hmem, of_decide_eq_true hboth⟩

end Sample
end Runner
end AsymmetricCommittee
