import AsymmetricCommittee.Agents.Runner
import AsymmetricCommittee.Lib.Except

/-! What a batch gives to its sink: each verdict is the answer of a job that was not done before, and no job is answered
    twice. -/

namespace AsymmetricCommittee
namespace Runner
open Partitions (EntityData Partition Partitioner)

variable {K : Type} [Field K] [LinearOrder K]

/-! ### The jobs -/

section Jobs
variable [FloorRing K] {fl : PyFloat K} {py : PyText} {p : Partitioner K} {e : EntityData K} {part : Partition}

omit [FloorRing K] in
theorem finish_token {agent : AgentName} {sections : List String} (h : p.finish e agent sections = .ok part) :
    part.entityToken = e.entityToken := by
  obtain ⟨header, -, h⟩ := Except.bind_eq_ok.mp h
  cases h
  rfl

theorem value_token (h : p.value fl e = .ok part) : part.entityToken = e.entityToken := by
  obtain ⟨_, -, h⟩ := Except.bind_eq_ok.mp h
  exact finish_token h

theorem qualityCatalyst_token (h : p.qualityCatalyst fl py e = .ok part) : part.entityToken = e.entityToken := by
  obtain ⟨_, -, h⟩ := Except.bind_eq_ok.mp h
  obtain ⟨_, -, h⟩ := Except.bind_eq_ok.mp h
  exact finish_token h

theorem insider_token (h : p.insider fl py e = .ok part) : part.entityToken = e.entityToken := by
  obtain ⟨_, -, h⟩ := Except.bind_eq_ok.mp h
  obtain ⟨_, -, h⟩ := Except.bind_eq_ok.mp h
  exact finish_token h

theorem technical_token (h : p.technical fl e = .ok part) : part.entityToken = e.entityToken := by
  obtain ⟨_, -, h⟩ := Except.bind_eq_ok.mp h
  exact finish_token h

theorem macroNarrative_token (h : p.macroNarrative fl py e = .ok part) : part.entityToken = e.entityToken := by
  obtain ⟨_, -, h⟩ := Except.bind_eq_ok.mp h
  obtain ⟨_, -, h⟩ := Except.bind_eq_ok.mp h
  obtain ⟨_, -, h⟩ := Except.bind_eq_ok.mp h
  exact finish_token h

theorem redTeam_token (h : p.redTeam fl py e = .ok part) : part.entityToken = e.entityToken := by
  obtain ⟨_, -, h⟩ := Except.bind_eq_ok.mp h
  obtain ⟨_, -, h⟩ := Except.bind_eq_ok.mp h
  obtain ⟨_, -, h⟩ := Except.bind_eq_ok.mp h
  obtain ⟨_, -, h⟩ := Except.bind_eq_ok.mp h
  obtain ⟨_, -, h⟩ := Except.bind_eq_ok.mp h
  exact finish_token h

/-- The jobs of an entity are about it, one for each agent that it has. -/
theorem jobsOf_eq_ok {ids : List SecurityId} {jobs : List (Job K)} (h : jobsOf fl py p ids e = .ok jobs) :
    (∀ job ∈ jobs, job.entity = e ∧ job.part.entityToken = e.entityToken) ∧
      jobs.map (·.agent) = votingAgents ++ if e.securityId ∈ ids then [.redTeam] else [] := by
  obtain ⟨value, hvalue, h⟩ := Except.bind_eq_ok.mp h
  obtain ⟨qualityCatalyst, hquality, h⟩ := Except.bind_eq_ok.mp h
  obtain ⟨insider, hinsider, h⟩ := Except.bind_eq_ok.mp h
  obtain ⟨technical, htechnical, h⟩ := Except.bind_eq_ok.mp h
  obtain ⟨macroNarrative, hmacro, h⟩ := Except.bind_eq_ok.mp h
  have hvoting : ∀ job ∈ ([⟨.value, e, value⟩, ⟨.qualityCatalyst, e, qualityCatalyst⟩, ⟨.insider, e, insider⟩,
      ⟨.technical, e, technical⟩, ⟨.macroNarrative, e, macroNarrative⟩] : List (Job K)),
      job.entity = e ∧ job.part.entityToken = e.entityToken := by
    simp [value_token hvalue, qualityCatalyst_token hquality, insider_token hinsider, technical_token htechnical,
      macroNarrative_token hmacro]
  by_cases hred : e.securityId ∈ ids
  · simp only [hred, ↓reduceIte] at h ⊢
    obtain ⟨red, hpart, h⟩ := Except.bind_eq_ok.mp h
    cases h
    refine ⟨fun job hjob => ?_, rfl⟩
    rcases List.mem_append.mp hjob with hjob | hjob
    · exact hvoting job hjob
    · rw [List.mem_singleton.mp hjob]
      exact ⟨rfl, redTeam_token hpart⟩
  · simp only [hred, ↓reduceIte] at h ⊢
    cases h
    exact ⟨hvoting, rfl⟩

/-- What tells the jobs of a batch apart. -/
def Job.id (job : Job K) : SecurityId × AgentName := (job.entity.securityId, job.agent)

/-- Every job of a batch is about one of its entities, and no two are the same. -/
theorem makeJobs_eq_ok {entities : List (EntityData K)} {ids : List SecurityId} {jobs : List (Job K)}
    (hu : (entities.map (·.securityId)).Nodup) (h : makeJobs fl py p entities ids = .ok jobs) :
    (∀ job ∈ jobs, job.entity ∈ entities ∧ job.part.entityToken = job.entity.entityToken) ∧ (jobs.map Job.id).Nodup := by
  unfold makeJobs at h
  split at h
  · cases h
  next hknown =>
  clear hknown
  split at h
  · cases h
  next parts hparts =>
  cases h
  have hall := Except.mapM_eq_ok.mp hparts
  clear hparts
  induction hall with
  | nil => simp
  | @cons e js entities parts hjs _ ih =>
    rw [List.map_cons, List.nodup_cons] at hu
    obtain ⟨hfresh, hu⟩ := hu
    obtain ⟨habout, hagents⟩ := jobsOf_eq_ok hjs
    obtain ⟨hmem, hnodup⟩ := ih hu
    refine ⟨fun job hjob => ?_, ?_⟩
    · rcases List.mem_append.mp hjob with hjob | hjob
      · obtain ⟨he, htoken⟩ := habout job hjob
        rw [he]
        exact ⟨List.mem_cons_self, htoken⟩
      · exact ⟨List.mem_cons_of_mem e (hmem job hjob).1, (hmem job hjob).2⟩
    · rw [List.flatten_cons, List.map_append, List.nodup_append]
      refine ⟨?_, hnodup, ?_⟩
      · have hagents : (js.map (·.agent)).Nodup := by
          rw [hagents]
          split <;> decide
        refine List.Nodup.of_map Prod.snd ?_
        rw [List.map_map]
        exact hagents
      · rintro _ h₁ _ h₂ rfl
        obtain ⟨job, hjob, rfl⟩ := List.mem_map.mp h₁
        obtain ⟨job', hjob', hid⟩ := List.mem_map.mp h₂
        have hsame : job'.entity.securityId = e.securityId := by
          rw [show job'.entity.securityId = job.entity.securityId from congrArg Prod.fst hid, (habout job hjob).1]
        exact hfresh (hsame ▸ List.mem_map_of_mem (hmem job' hjob').1)

end Jobs

/-! ### One move -/

variable {b : Batch} {jobs : List (Job K)} {s s' : State K} {m : Move K}

/-- The verdict that a move brings. -/
def Move.verdict? : Move K → Option (Verdict K)
  | .finish _ (.verdict v _ _ _) => some v
  | _ => none

/-- A move of the job at `i` that brings the sink nothing. -/
structure Quiet (s s' : State K) (i : Nat) (phase : Phase) : Prop where
  open_ : s.phases[i]? ≠ some .finished
  phases : s'.phases = s.phases.set i phase
  sunk : s'.sunk = s.sunk
  completed : s'.result.completed = s.result.completed

/-- A job that has answered: its place in the batch and its verdict. -/
structure Answer (K : Type) [Field K] [LinearOrder K] where
  index : Nat
  job : Job K
  verdict : Verdict K

/-- A move that brings the sink an answer. -/
structure Answered (b : Batch) (s s' : State K) (a : Answer K) : Prop where
  calling : s.phases[a.index]? = some .calling
  envelops : b.Envelops a.job a.verdict
  phases : s'.phases = s.phases.set a.index .finished
  sunk : s'.sunk = s.sunk ++ [a.verdict]
  completed : s'.result.completed = s.result.completed ++ [b.key a.job]

/-- What a move does: the job starts, goes on or ends without an answer, or it answers. -/
theorem move_eq_some (h : move b jobs s m = some s') :
    ∃ i job, jobs[i]? = some job ∧
      ((∃ phase, Quiet s s' i phase ∧ (m.verdict? = none ∨ s'.raised.isSome) ∧
          (phase = .finished ∨ b.key job ∉ b.done ∨ s.phases[i]? = some .queued)) ∨
        ∃ v, m.verdict? = some v ∧ Answered b s s' ⟨i, job, v⟩) := by
  unfold move at h
  split at h
  · cases h
  split at h
  · next i =>
    split at h
    · next job hjob hphase =>
      refine ⟨i, job, hjob, Or.inl ?_⟩
      split_ifs at h with hdone hstop
      · cases h
        exact ⟨.finished, ⟨by simp [hphase], rfl, rfl, rfl⟩, Or.inl rfl, Or.inl rfl⟩
      · cases h
        exact ⟨.finished, ⟨by simp [hphase], rfl, rfl, rfl⟩, Or.inl rfl, Or.inl rfl⟩
      · cases h
        exact ⟨.queued, ⟨by simp [hphase], rfl, rfl, rfl⟩, Or.inl rfl, Or.inr (Or.inl hdone)⟩
    · cases h
  · next i =>
    split at h
    · next job hjob hphase =>
      refine ⟨i, job, hjob, Or.inl ?_⟩
      split_ifs at h with hgate hstop
      · cases h
        exact ⟨.finished, ⟨by simp [hphase], rfl, rfl, rfl⟩, Or.inl rfl, Or.inl rfl⟩
      · cases h
        exact ⟨.calling, ⟨by simp [hphase], rfl, rfl, rfl⟩, Or.inl rfl, Or.inr (Or.inr hphase)⟩
    · cases h
  · next i o =>
    split at h
    · next job hjob hphase =>
      refine ⟨i, job, hjob, ?_⟩
      cases o with
      | verdict v costUsd cacheHit telemetry =>
        simp only at h
        split at h
        · next henvelops =>
          cases h
          cases telemetry with
          | none => exact Or.inl ⟨.finished, ⟨by simp [hphase], rfl, rfl, rfl⟩, Or.inr rfl, Or.inl rfl⟩
          | some telemetry => exact Or.inr ⟨v, rfl, hphase, henvelops, rfl, rfl, rfl⟩
        · cases h
      | discarded costUsd reason =>
        cases h
        exact Or.inl ⟨.finished, ⟨by simp [hphase], rfl, rfl, rfl⟩, Or.inl rfl, Or.inl rfl⟩
      | aborting e =>
        cases h
        exact Or.inl ⟨.finished, ⟨by simp [hphase], rfl, rfl, rfl⟩, Or.inl rfl, Or.inl rfl⟩
      | raised =>
        cases h
        exact Or.inl ⟨.finished, ⟨by simp [hphase], rfl, rfl, rfl⟩, Or.inl rfl, Or.inl rfl⟩
    · cases h

/-! ### A schedule -/

/-- The answers of a batch so far. -/
structure Answers (b : Batch) (jobs : List (Job K)) (s : State K) (as : List (Answer K)) : Prop where
  once : (as.map (·.index)).Nodup
  finished : ∀ a ∈ as, s.phases[a.index]? = some .finished
  job : ∀ a ∈ as, jobs[a.index]? = some a.job
  fresh : ∀ a ∈ as, b.key a.job ∉ b.done
  envelops : ∀ a ∈ as, b.Envelops a.job a.verdict
  sunk : s.sunk = as.map (·.verdict)
  completed : s.result.completed = as.map fun a => b.key a.job
  pending : ∀ (i : Nat) (job : Job K), jobs[i]? = some job →
    s.phases[i]? = some .queued ∨ s.phases[i]? = some .calling → b.key job ∉ b.done

theorem answers_start : Answers b jobs (State.start jobs) [] := by
  refine ⟨List.nodup_nil, List.forall_mem_nil _, List.forall_mem_nil _, List.forall_mem_nil _, List.forall_mem_nil _, rfl,
    rfl, fun i job _ h => ?_⟩
  simp only [State.start, List.getElem?_map, Option.map_eq_some_iff] at h
  rcases h with ⟨-, -, h⟩ | ⟨-, -, h⟩ <;> cases h

/-- The phase of a job after a move. -/
theorem phase_set {phases : List Phase} {i j : Nat} {phase x : Phase} (h : (phases.set i phase)[j]? = some x) :
    (j = i ∧ x = phase) ∨ phases[j]? = some x := by
  rw [List.getElem?_set] at h
  split at h
  · next hij =>
    split at h
    · exact Or.inl ⟨hij.symm, (Option.some.inj h).symm⟩
    · cases h
  · exact Or.inr h

theorem phase_of_ne {phases : List Phase} {i j : Nat} {phase : Phase} (hne : j ≠ i) :
    (phases.set i phase)[j]? = phases[j]? := List.getElem?_set_ne hne.symm

theorem Answers.quiet {as : List (Answer K)} (h : Answers b jobs s as) {i : Nat} {job : Job K} {phase : Phase}
    (hjob : jobs[i]? = some job) (hq : Quiet s s' i phase)
    (hphase : phase = .finished ∨ b.key job ∉ b.done ∨ s.phases[i]? = some .queued) : Answers b jobs s' as := by
  refine ⟨h.once, fun a ha => ?_, h.job, h.fresh, h.envelops, hq.sunk.trans h.sunk, hq.completed.trans h.completed, ?_⟩
  · have hne : a.index ≠ i := fun hi => hq.open_ (hi ▸ h.finished a ha)
    rw [hq.phases, phase_of_ne hne]
    exact h.finished a ha
  · intro j job' hjob' hwaits
    rw [hq.phases] at hwaits
    by_cases hj : j = i
    · subst hj
      obtain rfl := Option.some.inj (hjob.symm.trans hjob')
      rcases hphase with rfl | hfresh | hqueued
      · rcases hwaits with hwaits | hwaits
        · rcases phase_set hwaits with ⟨-, hx⟩ | hx
          · cases hx
          · exact h.pending j job hjob (Or.inl hx)
        · rcases phase_set hwaits with ⟨-, hx⟩ | hx
          · cases hx
          · exact h.pending j job hjob (Or.inr hx)
      · exact hfresh
      · exact h.pending j job hjob (Or.inl hqueued)
    · rw [phase_of_ne hj] at hwaits
      exact h.pending j job' hjob' hwaits

theorem Answers.answered {as : List (Answer K)} (h : Answers b jobs s as) {a : Answer K} (hjob : jobs[a.index]? = some a.job)
    (ha : Answered b s s' a) : Answers b jobs s' (as ++ [a]) := by
  have hnew : ∀ x ∈ as, x.index ≠ a.index := by
    intro x hx hi
    have hfinished := h.finished x hx
    rw [hi, ha.calling] at hfinished
    cases hfinished
  have hlast : ∀ {p : Answer K → Prop}, (∀ x ∈ as, p x) → p a → ∀ x ∈ as ++ [a], p x := by
    intro p hp hpa x hx
    rcases List.mem_append.mp hx with hx | hx
    · exact hp x hx
    · rw [List.mem_singleton.mp hx]
      exact hpa
  refine ⟨?_, hlast (fun x hx => ?_) ?_, hlast h.job hjob, hlast h.fresh (h.pending _ _ hjob (Or.inr ha.calling)),
    hlast h.envelops ha.envelops, ?_, ?_, ?_⟩
  · rw [List.map_append, List.nodup_append]
    refine ⟨h.once, List.nodup_singleton _, ?_⟩
    rintro _ hx _ hy rfl
    obtain ⟨x, hx, hi⟩ := List.mem_map.mp hx
    exact hnew x hx (hi.trans (List.mem_singleton.mp hy))
  · rw [ha.phases, phase_of_ne (hnew x hx)]
    exact h.finished x hx
  · rw [ha.phases, List.getElem?_set_self (List.getElem?_eq_some_iff.mp ha.calling).1]
  · rw [ha.sunk, h.sunk, List.map_append, List.map_singleton]
  · rw [ha.completed, h.completed, List.map_append, List.map_singleton]
  · intro j job hj hwaits
    rw [ha.phases] at hwaits
    have hold : ∀ {x : Phase}, x ≠ .finished → (s.phases.set a.index .finished)[j]? = some x → s.phases[j]? = some x := by
      intro x hx hset
      rcases phase_set hset with ⟨-, rfl⟩ | hset
      · exact absurd rfl hx
      · exact hset
    exact h.pending j job hj (hwaits.imp (hold (by decide)) (hold (by decide)))

/-- A move that did not raise adds the answer that it brings. -/
theorem answers_move {as : List (Answer K)} (h : Answers b jobs s as) (hm : move b jobs s m = some s')
    (hr : s'.raised = none) :
    ∃ more, Answers b jobs s' (as ++ more) ∧ more.map (·.verdict) = m.verdict?.toList := by
  obtain ⟨i, job, hjob, ⟨phase, hq, hverdict, hphase⟩ | ⟨v, hverdict, ha⟩⟩ := move_eq_some hm
  · refine ⟨[], (List.append_nil as).symm ▸ h.quiet hjob hq hphase, ?_⟩
    rcases hverdict with hverdict | hraised
    · rw [hverdict]
      rfl
    · rw [hr] at hraised
      cases hraised
  · exact ⟨[⟨i, job, v⟩], h.answered hjob ha, by rw [hverdict]; rfl⟩

/-- No move follows an exception. -/
theorem moves_raised {schedule : List (Move K)} (h : moves b jobs s schedule = some s') (hr : s'.raised = none) :
    s.raised = none := by
  cases schedule with
  | nil =>
    cases h
    exact hr
  | cons m schedule =>
    obtain ⟨t, hm, -⟩ := Option.bind_eq_some_iff.mp h
    unfold move at hm
    split at hm
    · cases hm
    · next hnone => simpa using hnone

theorem answers_moves {schedule : List (Move K)} {as : List (Answer K)} (h : Answers b jobs s as)
    (hm : moves b jobs s schedule = some s') (hr : s'.raised = none) :
    ∃ more, Answers b jobs s' (as ++ more) ∧ more.map (·.verdict) = schedule.filterMap Move.verdict? := by
  induction schedule generalizing s as with
  | nil =>
    cases hm
    exact ⟨[], (List.append_nil as).symm ▸ h, rfl⟩
  | cons m schedule ih =>
    obtain ⟨t, hstep, hrest⟩ := Option.bind_eq_some_iff.mp hm
    obtain ⟨one, ht, hone⟩ := answers_move h hstep (moves_raised hrest hr)
    obtain ⟨more, hs', hmore⟩ := ih ht hrest
    refine ⟨one ++ more, by rwa [← List.append_assoc], ?_⟩
    rw [List.map_append, hone, hmore]
    cases hv : m.verdict? with
    | none => rw [List.filterMap_cons_none hv]; rfl
    | some v => rw [List.filterMap_cons_some hv]; rfl

/-! ### A batch -/

/-- What a batch that did not raise has delivered. -/
structure Delivered (b : Batch) (entities : List (EntityData K)) (schedule : List (Move K)) (s : State K)
    (as : List (Answer K)) : Prop where
  about : ∀ a ∈ as, a.job.entity ∈ entities
  agent : ∀ a ∈ as, a.verdict.agent = a.job.agent
  token : ∀ a ∈ as, a.verdict.envelope.entityToken = a.job.entity.entityToken
  fresh : ∀ a ∈ as, b.key a.job ∉ b.done
  distinct : (as.map fun a => b.key a.job).Nodup
  sunk : s.sunk = as.map (·.verdict)
  completed : s.result.completed = as.map fun a => b.key a.job
  schedule : as.map (·.verdict) = schedule.filterMap Move.verdict?

theorem runAgents_eq_ok [FloorRing K] {fl : PyFloat K} {py : PyText} {p : Partitioner K} {entities : List (EntityData K)}
    {ids : List SecurityId} {schedule : List (Move K)} (hu : (entities.map (·.securityId)).Nodup)
    (h : runAgents fl py p entities ids b schedule = some (.ok s)) (hr : s.raised = none) :
    ∃ as, Delivered b entities schedule s as := by
  unfold runAgents at h
  split at h
  · cases h
  next jobs hjobs =>
  obtain ⟨t, ht, hs⟩ := Option.map_eq_some_iff.mp h
  cases hs
  obtain ⟨hm, -⟩ := Option.filter_eq_some_iff.mp ht
  obtain ⟨as, has, hschedule⟩ := answers_moves answers_start hm hr
  rw [List.nil_append] at has
  obtain ⟨habout, hids⟩ := makeJobs_eq_ok hu hjobs
  have hmem : ∀ a ∈ as, a.job ∈ jobs := fun a ha => List.mem_of_getElem? (has.job a ha)
  refine ⟨as, fun a ha => (habout _ (hmem a ha)).1, fun a ha => (has.envelops a ha).1, fun a ha => ?_, has.fresh, ?_, has.sunk,
    has.completed, hschedule⟩
  · rw [(has.envelops a ha).2.2.1, (habout _ (hmem a ha)).2]
  · -- two answers under one key are of one job, hence at one place
    refine (List.nodup_map_iff_inj_on (has.once.of_map _)).mpr fun x hx y hy hkey => ?_
    have hid : x.job.id = y.job.id := by
      have hagent := congrArg TaskKey.stage hkey
      have hsecurity := congrArg TaskKey.securityId hkey
      exact Prod.ext hsecurity hagent
    refine List.inj_on_of_nodup_map has.once hx hy ?_
    obtain ⟨hx', hxi⟩ := List.getElem?_eq_some_iff.mp (has.job x hx)
    obtain ⟨hy', hyi⟩ := List.getElem?_eq_some_iff.mp (has.job y hy)
    rw [← List.length_map Job.id] at hx' hy'
    have hsame : (jobs.map Job.id)[x.index] = (jobs.map Job.id)[y.index] := by
      rw [List.getElem_map, List.getElem_map, hxi, hyi, hid]
    exact hids.getElem_inj_iff.mp hsame

end Runner
end AsymmetricCommittee
