import AsymmetricCommittee.Lib.Grouping
import AsymmetricCommittee.Contracts.Samples
import AsymmetricCommittee.Orchestration.Pipeline
import AsymmetricCommittee.Theorems.BatchRuns
import AsymmetricCommittee.Theorems.CanonicalCommitment
import AsymmetricCommittee.Theorems.PartitionBoundaries
import AsymmetricCommittee.Theorems.RunStatus

/-! The voting verdicts on record of a committed run, against those that were pooled for its decisions: the record holds
    what was pooled and what the second batch brought in addition. -/

namespace AsymmetricCommittee
namespace Pipeline
open Partitions (EntityData)
open Runner (TaskKey Move Answer Delivered)

variable {K : Type} [Field K] [LinearOrder K]

/-! ### Steps -/

theorem bind_run {α β : Type} (x : Steps K α) (f : α → Steps K β) (a : Attempt K) :
    (x >>= f).run.run a = match x.run.run a with
      | (.ok y, t) => (f y).run.run t
      | (.error e, t) => (.error e, t) := by
  simp only [ExceptT.run_bind, StateT.run_bind]
  rcases x.run.run a with ⟨_ | _, _⟩ <;> rfl

theorem bind_eq_ok {α β : Type} {x : Steps K α} {f : α → Steps K β} {a a' : Attempt K} {r : β} :
    (x >>= f).run.run a = (.ok r, a') ↔
      ∃ y t, x.run.run a = (.ok y, t) ∧ (f y).run.run t = (.ok r, a') := by
  rw [bind_run]
  rcases x.run.run a with ⟨e | y, t⟩
  · exact ⟨fun h => (nomatch Prod.mk.inj h), fun ⟨_, _, h, _⟩ => (nomatch Prod.mk.inj h)⟩
  · refine ⟨fun h => ⟨y, t, rfl, h⟩, ?_⟩
    rintro ⟨y', t', h, hf⟩
    cases h
    exact hf

theorem ofExcept_run {α : Type} (x : Except PipelineError α) (a : Attempt K) :
    (ofExcept x : Steps K α).run.run a = (x, a) := by
  cases x <;> rfl

/-! ### What an attempt has collected -/

def votes (vs : List (Verdict K)) : List (AgentVerdict K) := vs.filterMap Verdict.vote?

def reds (vs : List (Verdict K)) : List RedTeamVerdict := vs.filterMap Verdict.red?

@[simp] theorem votes_vote (v : AgentVerdict K) (vs : List (Verdict K)) : votes (.vote v :: vs) = v :: votes vs := rfl

@[simp] theorem votes_red (v : RedTeamVerdict) (vs : List (Verdict K)) : votes (.red v :: vs) = votes vs := rfl

@[simp] theorem reds_vote (v : AgentVerdict K) (vs : List (Verdict K)) : reds (.vote v :: vs) = reds vs := rfl

@[simp] theorem reds_red (v : RedTeamVerdict) (vs : List (Verdict K)) : reds (.red v :: vs) = v :: reds vs := rfl

theorem votes_append (vs ws : List (Verdict K)) : votes (vs ++ ws) = votes vs ++ votes ws := List.filterMap_append

theorem reds_append (vs ws : List (Verdict K)) : reds (vs ++ ws) = reds vs ++ reds ws := List.filterMap_append

/-- Sorting verdicts by kind loses none. -/
theorem votes_reds_perm (vs : List (Verdict K)) : ((votes vs).map Verdict.vote ++ (reds vs).map Verdict.red).Perm vs := by
  induction vs with
  | nil => exact List.Perm.refl []
  | cons v vs ih =>
    cases v with
    | vote v => exact ih.cons (.vote v)
    | red v => exact List.perm_middle.trans (ih.cons (.red v))

/-- An attempt that holds these verdicts and no others. -/
def Holds (a : Attempt K) (vs : List (Verdict K)) : Prop := a.voters = votes vs ∧ a.reds = reds vs

/-- What collecting verdicts leaves as it was. -/
theorem foldl_collect (vs : List (Verdict K)) (a : Attempt K) :
    vs.foldl Attempt.collect a = { a with voters := a.voters ++ votes vs, reds := a.reds ++ reds vs } := by
  induction vs generalizing a with
  | nil => simp [votes, reds]
  | cons v vs ih =>
    rw [List.foldl_cons, ih]
    cases v <;> simp [Attempt.collect]

/-! ### Tasks -/

/-- The task of a verdict. -/
def task? (inputs : StepInputs K) (runId : UUID) (v : Verdict K) : Option TaskKey :=
  (securityOf inputs.entities v.envelope.entityToken).map (taskOf runId v)

/-- A token of the universe is that of one security. -/
theorem securityOf_token {inputs : StepInputs K} {e : EntityData K} (he : e ∈ inputs.entities) :
    securityOf inputs.entities e.entityToken = some e.securityId := by
  have hfind : KeyedTable.find EntityData.entityToken inputs.entities e.entityToken = some e :=
    (KeyedTable.find_eq_some inputs.tokens_unique).mpr ⟨he, rfl⟩
  exact congrArg (Option.map EntityData.securityId) hfind

/-- The answers of a batch are of its tasks. -/
theorem task?_answers {inputs : StepInputs K} {b : Runner.Batch} {entities : List (EntityData K)} {schedule : List (Move K)}
    {s : Runner.State K} {as : List (Answer K)} (h : Delivered b entities schedule s as) (hsub : entities ⊆ inputs.entities) :
    s.sunk.map (task? inputs b.runId) = s.result.completed.map some := by
  rw [h.sunk, h.completed, List.map_map, List.map_map]
  refine List.map_congr_left fun a ha => ?_
  simp only [Function.comp_apply, task?, h.token a ha, securityOf_token (hsub (h.about a ha)), Option.map_some]
  rw [taskOf, h.agent a ha]
  rfl

/-! ### The stored verdicts -/

/-- The rows of a run. -/
def rowsOf (db : RunTables K (Verdict K)) (runId : UUID) : List (VerdictRecord K (Verdict K)) :=
  db.agentVerdicts.filter fun r => r.runId = runId

/-- The voting verdicts on record of a run. -/
def storedVotes (db : RunTables K (Verdict K)) (runId : UUID) : List (AgentVerdict K) :=
  votes ((rowsOf db runId).map (·.verdict))

/-- The verdict rows of any history: no two share a key, each is filed under its verdict's agent, and its run is
    stored. -/
structure Rows (db : RunTables K (Verdict K)) : Prop where
  unique : KeyedTable.Unique RunTables.verdictKey db.agentVerdicts
  agent : ∀ r ∈ db.agentVerdicts, r.agent = r.verdict.agent
  run : ∀ r ∈ db.agentVerdicts, (db.run? r.runId).isSome

theorem loadVerdicts_perm (db : RunTables K (Verdict K)) (runId : UUID) :
    (loadVerdicts db runId).Perm (rowsOf db runId) := List.perm_insertionSort _ _

/-- Stored verdicts are taken in as they are, each with its task. -/
theorem seed_eq_ok {inputs : StepInputs K} {rows : List (VerdictRecord K (Verdict K))} {a a' : Attempt K}
    (h : rows.foldlM (seedOne inputs) a = .ok a') :
    a' = { a with
      voters := a.voters ++ votes (rows.map (·.verdict))
      reds := a.reds ++ reds (rows.map (·.verdict))
      stored := a.stored ++ rows.map fun r => taskOf a.runId r.verdict r.securityId } ∧
    ∀ r ∈ rows, securityOf inputs.entities r.verdict.envelope.entityToken = some r.securityId := by
  induction rows generalizing a with
  | nil =>
    cases h
    simp [votes, reds]
  | cons r rows ih =>
    obtain ⟨t, ht, h⟩ := Except.bind_eq_ok.mp h
    unfold seedOne at ht
    split at ht
    · cases ht
    next hsecurity =>
    obtain ⟨ha', hrows⟩ := ih h
    cases ht
    refine ⟨?_, List.forall_mem_cons.mpr ⟨not_not.mp hsecurity, hrows⟩⟩
    rw [ha', List.map_cons]
    cases hv : r.verdict <;> simp [Attempt.collect, hv]

/-! ### Collecting -/

/-- The verdicts that an attempt holds, each of its own task. -/
structure Collected (inputs : StepInputs K) (a : Attempt K) (vs : List (Verdict K)) (keys : List TaskKey) : Prop where
  holds : Holds a vs
  tasks : vs.map (task? inputs a.runId) = keys.map some
  distinct : keys.Nodup

/-- The task of a stored verdict. -/
def rowTask (r : VerdictRecord K (Verdict K)) : TaskKey := taskOf r.runId r.verdict r.securityId

theorem rowTask_inj {db : RunTables K (Verdict K)} (hdb : Rows db) {r r' : VerdictRecord K (Verdict K)}
    (hr : r ∈ db.agentVerdicts) (hr' : r' ∈ db.agentVerdicts) (h : rowTask r = rowTask r') : r = r' := by
  obtain ⟨hrun, hagent, hsecurity⟩ : r.runId = r'.runId ∧ r.verdict.agent = r'.verdict.agent ∧ r.securityId = r'.securityId := by
    simpa [rowTask, taskOf] using h
  refine List.inj_on_of_nodup_map hdb.unique hr hr' ?_
  rw [← hdb.agent r hr, ← hdb.agent r' hr'] at hagent
  rw [RunTables.verdictKey, RunTables.verdictKey, hrun, hsecurity, hagent]

/-- An attempt begins with the verdicts on record. -/
theorem begin_eq_ok {cfg : PipelineConfig K} {s : Surroundings K} {db : RunTables K (Verdict K)} {runId : UUID}
    {asOf : AwareDatetime} {a : Attempt K} (hdb : Rows db) (h : begin_ cfg s db runId asOf = .ok (some a)) :
    a.runId = runId ∧ ∃ rows : List (VerdictRecord K (Verdict K)), rows.Perm (rowsOf db runId) ∧
      a.stored = rows.map rowTask ∧ Collected s.inputs a (rows.map (·.verdict)) a.stored := by
  unfold begin_ at h
  split at h
  · next hrun =>
    cases h
    have hnone : rowsOf db runId = [] := by
      refine List.filter_eq_nil_iff.mpr fun r hr hid => ?_
      have hstored := hdb.run r hr
      rw [of_decide_eq_true hid, hrun] at hstored
      cases hstored
    exact ⟨rfl, [], by rw [hnone], rfl, ⟨⟨rfl, rfl⟩, rfl, List.nodup_nil⟩⟩
  · next prior hrun =>
    split at h
    · cases h
    split at h
    · cases h
    obtain ⟨t, hseed, hsome⟩ := Except.map_eq_ok.mp h
    obtain rfl := Option.some.inj hsome
    obtain ⟨rfl, hsecurity⟩ := seed_eq_ok hseed
    have hperm := loadVerdicts_perm db runId
    have hmem : ∀ r ∈ loadVerdicts db runId, r ∈ db.agentVerdicts ∧ r.runId = runId := fun r hr => by
      simpa [rowsOf] using hperm.mem_iff.mp hr
    have hstored : (loadVerdicts db runId).map (fun r => taskOf runId r.verdict r.securityId) =
        (loadVerdicts db runId).map rowTask := by
      refine List.map_congr_left fun r hr => ?_
      rw [rowTask, (hmem r hr).2]
    have hnodup : (loadVerdicts db runId).Nodup :=
      hperm.nodup_iff.mpr ((List.Nodup.of_map _ hdb.unique).filter _)
    simp only [List.nil_append]
    refine ⟨trivial, loadVerdicts db runId, hperm, hstored, ⟨rfl, rfl⟩, ?_, ?_⟩
    · simp only [List.map_map]
      refine List.map_congr_left fun r hr => ?_
      simp only [Function.comp_apply, task?, hsecurity r hr, Option.map_some]
    · simp only [hstored]
      exact (List.nodup_map_iff_inj_on hnodup).mpr fun r hr r' hr' =>
        rowTask_inj hdb (hmem r hr).1 (hmem r' hr').1

section Execution
variable [FloorRing K] {fl : PyFloat K} {py : PyText} {fns : Pooling.PoolFns K} {sha256 : String → Sha256Hex}
  {F : Json.FloatText K} {cfg : PipelineConfig K} {s : Surroundings K} {a a' : Attempt K}

/-- What a batch adds to an attempt. -/
structure Extended (a a' : Attempt K) : Prop where
  runId : a'.runId = a.runId
  asOf : a'.asOf = a.asOf
  stored : a'.stored = a.stored

theorem callAgents_eq_ok {entities : List (EntityData K)} {ids : List SecurityId} {done : List TaskKey}
    {schedule : List (Move K)} {r : Runner.Result K} {vs : List (Verdict K)} {keys : List TaskKey}
    (h : (callAgents fl py cfg s entities ids done schedule).run.run a = (.ok r, a')) (hsub : entities.Sublist s.inputs.entities)
    (ha : Collected s.inputs a vs keys) (hdone : keys ⊆ done) :
    Extended a a' ∧ Collected s.inputs a' (vs ++ schedule.filterMap Move.verdict?) (keys ++ r.completed) := by
  obtain ⟨a₀, t, hget, h⟩ := bind_eq_ok.mp h
  cases hget
  split at h
  · cases h
  · cases h
  next batch hbatch =>
  obtain ⟨⟨⟩, t, hcollect, h⟩ := bind_eq_ok.mp h
  cases hcollect
  split at h
  · cases h
  next hraised =>
  obtain ⟨⟨⟩, t, htelemetry, h⟩ := bind_eq_ok.mp h
  cases htelemetry
  cases h
  obtain ⟨as, has⟩ := Runner.runAgents_eq_ok (s.inputs.ids_unique.sublist (hsub.map _)) hbatch hraised
  have htasks := task?_answers has hsub.subset
  have hsunk : batch.sunk = schedule.filterMap Move.verdict? := has.sunk.trans has.schedule
  simp only [foldl_collect]
  rw [← hsunk]
  refine ⟨⟨rfl, rfl, rfl⟩, ⟨?_, ?_⟩, ?_, ?_⟩
  · rw [votes_append, ← ha.holds.1]
  · rw [reds_append, ← ha.holds.2]
  · rw [List.map_append, List.map_append, ← htasks, ← ha.tasks]
  · rw [has.completed, List.nodup_append]
    refine ⟨ha.distinct, has.distinct, ?_⟩
    rintro key hkey _ hkey' rfl
    obtain ⟨x, hx, rfl⟩ := List.mem_map.mp hkey'
    exact has.fresh x hx (hdone hkey)

end Execution
/-! ### Records -/

section Records
variable {inputs : StepInputs K} {a : Attempt K} {complete : Bool} {v : Verdict K}

/-- A record of a verdict that was not stored yet. -/
structure Recorded (inputs : StepInputs K) (a : Attempt K) (r : VerdictRecord K (Verdict K)) : Prop where
  runId : r.runId = a.runId
  agent : r.agent = r.verdict.agent
  task : task? inputs a.runId r.verdict = some (rowTask r)
  fresh : rowTask r ∉ a.stored

/-- Whether a verdict is not stored yet. -/
def isNew (inputs : StepInputs K) (a : Attempt K) (v : Verdict K) : Bool :=
  (task? inputs a.runId v).all fun key => key ∉ a.stored

theorem newRecord_some {r : VerdictRecord K (Verdict K)} (h : newRecord inputs a complete v = .ok (some r)) :
    r.verdict = v ∧ Recorded inputs a r := by
  unfold newRecord at h
  split at h
  · cases h
  next securityId hsecurity =>
  simp only at h
  split at h
  · cases h
  next hnew =>
  split at h
  · split at h <;> cases h
  · cases h
    refine ⟨rfl, rfl, rfl, ?_, hnew⟩
    rw [task?, hsecurity]
    rfl

theorem newRecord_none (h : newRecord inputs a true v = .ok none) : isNew inputs a v = false := by
  unfold newRecord at h
  split at h
  · cases h
  next securityId hsecurity =>
  simp only at h
  split at h
  · next hstored => simpa [isNew, task?, hsecurity] using hstored
  · split at h <;> cases h

theorem newVerdictRecords_eq_ok {rs : List (VerdictRecord K (Verdict K))}
    (h : newVerdictRecords inputs a complete = .ok rs) : ∀ r ∈ rs, Recorded inputs a r := by
  obtain ⟨records, hrecords, h⟩ := Except.bind_eq_ok.mp h
  cases h
  intro r hr
  have hmem : some r ∈ records := by simpa using hr
  obtain ⟨v, -, hv⟩ := Forall₂.exists_of_mem_right (Except.mapM_eq_ok.mp hrecords) hmem
  exact (newRecord_some hv).2

/-- A complete record has every new verdict. -/
theorem records_verdicts {vs : List (Verdict K)} {records : List (Option (VerdictRecord K (Verdict K)))}
    (h : List.Forall₂ (fun v r => newRecord inputs a true v = .ok r) vs records) :
    (records.filterMap id).map (·.verdict) = vs.filter (isNew inputs a) := by
  induction h with
  | nil => rfl
  | @cons v record vs records hv _ ih =>
    cases record with
    | none =>
      rw [show (none :: records).filterMap id = records.filterMap id from rfl, ih,
        List.filter_cons_of_neg (by simp [newRecord_none hv])]
    | some r =>
      obtain ⟨rfl, hr⟩ := newRecord_some hv
      have hnew : isNew inputs a r.verdict = true := by simpa [isNew, hr.task] using hr.fresh
      rw [show (some r :: records).filterMap id = r :: records.filterMap id from rfl, List.map_cons, ih,
        List.filter_cons_of_pos hnew]

/-- What an attempt holds besides the stored verdicts is what it records. -/
theorem newVerdictRecords_perm {stored more : List (Verdict K)} {keys : List TaskKey}
    {rs : List (VerdictRecord K (Verdict K))} (ha : Collected inputs a (stored ++ more) (a.stored ++ keys))
    (hstored : stored.map (task? inputs a.runId) = a.stored.map some) (h : newVerdictRecords inputs a true = .ok rs) :
    (rs.map (·.verdict)).Perm more ∧ (rs.map rowTask).Nodup := by
  have hrecorded := newVerdictRecords_eq_ok h
  obtain ⟨records, hrecords, h⟩ := Except.bind_eq_ok.mp h
  cases h
  have hmore : more.map (task? inputs a.runId) = keys.map some := by
    have htasks := ha.tasks
    rw [List.map_append, List.map_append, hstored] at htasks
    exact List.append_cancel_left htasks
  have hnodup := List.nodup_append.mp ha.distinct
  have hperm : ((records.filterMap id).map (·.verdict)).Perm more := by
    rw [records_verdicts (Except.mapM_eq_ok.mp hrecords), ha.holds.1, ha.holds.2]
    refine ((votes_reds_perm _).filter _).trans ?_
    have hold : stored.filter (isNew inputs a) = [] := by
      refine List.filter_eq_nil_iff.mpr fun v hv => ?_
      obtain ⟨key, hkey, htask⟩ := List.mem_map.mp (hstored ▸ List.mem_map_of_mem hv : task? inputs a.runId v ∈ _)
      simpa [isNew, ← htask] using hkey
    have hnew : more.filter (isNew inputs a) = more := by
      refine List.filter_eq_self.mpr fun v hv => ?_
      obtain ⟨key, hkey, htask⟩ := List.mem_map.mp (hmore ▸ List.mem_map_of_mem hv : task? inputs a.runId v ∈ _)
      have hfresh : key ∉ a.stored := fun hin => hnodup.2.2 key hin key hkey rfl
      simpa [isNew, ← htask] using hfresh
    rw [List.filter_append, hold, hnew, List.nil_append]
  refine ⟨hperm, ?_⟩
  have htasks : (records.filterMap id).map (fun r => some (rowTask r)) =
      ((records.filterMap id).map (·.verdict)).map (task? inputs a.runId) := by
    rw [List.map_map]
    exact List.map_congr_left fun r hr => (hrecorded r hr).task.symm
  refine List.Nodup.of_map some ?_
  rw [List.map_map, Function.comp_def, htasks, (hperm.map _).nodup_iff, hmore]
  exact hnodup.2.1.map (Option.some_injective _)

/-- The record after a flush of new verdicts. -/
theorem storedVotes_flush {sha256 : String → Sha256Hex} {json : AuditJson K} {db db' : RunTables K (Verdict K)}
    {step : StepArtifacts K (Verdict K)} {rows : List (VerdictRecord K (Verdict K))} (hdb : Rows db)
    (hrows : rows.Perm (rowsOf db a.runId)) (hstored : a.stored = rows.map rowTask)
    (hnew : ∀ r ∈ step.verdicts, Recorded inputs a r) (hdistinct : (step.verdicts.map rowTask).Nodup)
    (h : Sink.flushStep sha256 json db step = .ok db') :
    storedVotes db' a.runId = storedVotes db a.runId ++ votes (step.verdicts.map (·.verdict)) := by
  have hfresh : ∀ r ∈ step.verdicts, KeyedTable.find RunTables.verdictKey db.agentVerdicts (RunTables.verdictKey r) = none := by
    intro r hr
    refine KeyedTable.find_eq_none.mpr fun r' hr' hkey => (hnew r hr).fresh ?_
    obtain ⟨hrun, hsecurity, hagent⟩ : r'.runId = r.runId ∧ r'.securityId = r.securityId ∧ r'.agent = r.agent := by
      simpa [RunTables.verdictKey] using hkey
    have hin : r' ∈ rows := by
      refine hrows.mem_iff.mpr (List.mem_filter.mpr ⟨hr', ?_⟩)
      rw [hrun, (hnew r hr).runId]
      exact decide_eq_true rfl
    have htask : rowTask r = rowTask r' := by
      rw [rowTask, rowTask, taskOf, taskOf, hrun, hsecurity, ← hdb.agent r' hr', ← (hnew r hr).agent, hagent]
    rw [hstored, htask]
    exact List.mem_map_of_mem hin
  have hunique : KeyedTable.Unique RunTables.verdictKey step.verdicts := by
    refine List.Nodup.of_map (fun key : UUID × SecurityId × AgentName => (⟨key.1, key.2.2, key.2.1⟩ : TaskKey)) ?_
    rw [List.map_map]
    refine (List.map_congr_left fun r hr => ?_).symm ▸ hdistinct
    rw [Function.comp_apply, rowTask, taskOf, ← (hnew r hr).agent]
    rfl
  have hrun : step.verdicts.filter (fun r => r.runId = a.runId) = step.verdicts :=
    List.filter_eq_self.mpr fun r hr => decide_eq_true (hnew r hr).runId
  rw [storedVotes, storedVotes, rowsOf, rowsOf, Sink.flushStep_verdicts h, KeyedTable.insertAll_of_fresh hfresh hunique,
    List.filter_append, hrun, List.map_append, votes_append]

end Records

/-! ### Pooling -/

section Pooling
variable {fns : Pooling.PoolFns K} {baseRates : Horizon → Option K} {config : CommitteeConfig K}
  {history : Option (Pooling.History K)} {vs vs' : List (AgentVerdict K)} {forecast : PooledForecast K}

theorem enumValue_injective : Function.Injective AgentName.enumValue := by
  intro a b h
  revert h
  cases a <;> cases b <;> decide

/-- A pool does not depend on the order of the verdicts. -/
theorem poolAgentVerdicts_perm (h : vs.Perm vs') :
    Pooling.poolAgentVerdicts fns vs baseRates config history = Pooling.poolAgentVerdicts fns vs' baseRates config history := by
  unfold Pooling.poolAgentVerdicts
  by_cases hn : (vs.map (·.agent)).Nodup
  · have hn' : (vs'.map (·.agent)).Nodup := (h.map _).nodup_iff.mp hn
    have hvoters : Pooling.voters vs = Pooling.voters vs' := by
      have hinj : ∀ v ∈ vs, ∀ w ∈ vs, v.agent.enumValue = w.agent.enumValue → v = w := fun v hv w hw hagent =>
        List.inj_on_of_nodup_map hn hv hw (enumValue_injective hagent)
      refine Grouping.insertionSort_eq_of_perm (fun v : AgentVerdict K => v.agent.enumValue) (h.filter _) ?_
      exact fun v hv w hw => hinj v (List.mem_of_mem_filter hv) w (List.mem_of_mem_filter hw)
    simp only [hn, hn', hvoters, h.mem_iff]
  · have hn' : ¬(vs'.map (·.agent)).Nodup := fun hn' => hn ((h.map _).nodup_iff.mpr hn')
    simp only [hn, hn', not_false_eq_true, ↓reduceIte]

/-- A pool is of the entity that its verdicts are about. -/
theorem poolAgentVerdicts_token (h : Pooling.poolAgentVerdicts fns vs baseRates config history = .ok forecast) :
    ∃ v ∈ vs, forecast.entityToken = v.entityToken := by
  unfold Pooling.poolAgentVerdicts at h
  split_ifs at h
  split at h
  · cases h
  · next v rest hvoters =>
    obtain ⟨pools, -, h⟩ := Except.bind_eq_ok.mp h
    split at h
    · cases h
      have hv : v ∈ Pooling.voters vs := hvoters ▸ List.mem_cons_self
      exact ⟨v, List.mem_of_mem_filter ((List.perm_insertionSort _ _).mem_iff.mp hv), rfl⟩
    · cases h

end Pooling

/-! ### What is committed -/

section Committed
variable [FloorRing K] {fl : PyFloat K} {py : PyText} {fns : Pooling.PoolFns K} {sha256 : String → Sha256Hex}
  {F : Json.FloatText K} {cfg : PipelineConfig K} {s : Surroundings K} {a a' : Attempt K}
  {step : StepArtifacts K (Verdict K)}

/-- The pool of a decision, from the verdicts about its entity, has the decision's probability. -/
def Reproduces (fns : Pooling.PoolFns K) (cfg : PipelineConfig K) (s : Surroundings K) (vs : List (AgentVerdict K))
    (d : CommitteeDecision K) : Prop :=
  ∃ forecast, Pooling.poolAgentVerdicts fns (vs.filter fun v => v.entityToken = d.entityToken) s.inputs.baseRates cfg.committee
      s.inputs.history = .ok forecast ∧
    ∃ pool ∈ forecast.pools, pool.horizon = d.horizonDays ∧ pooledP fns cfg s pool = .ok d.pooledP

omit [FloorRing K] in
theorem unfinished_status {status : RunStatus} {complete : Bool} {reason : String}
    (h : unfinished cfg s a status complete reason = .ok step) : step.run.status = status := by
  obtain ⟨run, hrun, h⟩ := Except.bind_eq_ok.mp h
  obtain ⟨verdicts, -, h⟩ := Except.bind_eq_ok.mp h
  unfold artifacts at h
  split at h
  · cases h
    unfold runRecord at hrun
    simp only at hrun
    split at hrun
    · cases hrun
      rfl
    · cases hrun
  · cases h

omit [FloorRing K] in
theorem unfinished_verdicts {status : RunStatus} {complete : Bool} {reason : String}
    (h : unfinished cfg s a status complete reason = .ok step) :
    newVerdictRecords s.inputs a complete = .ok step.verdicts := by
  obtain ⟨run, -, h⟩ := Except.bind_eq_ok.mp h
  obtain ⟨verdicts, hverdicts, h⟩ := Except.bind_eq_ok.mp h
  unfold artifacts at h
  split at h
  · cases h
    exact hverdicts
  · cases h

/-- What a commit records. -/
structure Commits (fns : Pooling.PoolFns K) (cfg : PipelineConfig K) (s : Surroundings K) (a : Attempt K)
    (pooled : List (SecurityId × PooledForecast K)) (step : StepArtifacts K (Verdict K)) : Prop where
  verdicts : newVerdictRecords s.inputs a true = .ok step.verdicts
  decisions : ∃ bear cio calibrated, decisionRecords fns cfg s a pooled bear cio calibrated = .ok step.decisions

omit [FloorRing K] in
theorem commit_eq_ok {pooled : List (SecurityId × PooledForecast K)} {bear : Dict Int (Option BearSeverity)}
    {cio : CioResult K} {calibrated : Bool} (h : commit fns sha256 F cfg s a pooled bear cio calibrated = .ok step) :
    Commits fns cfg s a pooled step := by
  obtain ⟨records, hrecords, h⟩ := Except.bind_eq_ok.mp h
  obtain ⟨snapshot, -, h⟩ := Except.bind_eq_ok.mp h
  obtain ⟨run, -, h⟩ := Except.bind_eq_ok.mp h
  obtain ⟨verdicts, hverdicts, h⟩ := Except.bind_eq_ok.mp h
  split at h
  · cases h
  · unfold artifacts at h
    split at h
    · cases h
      exact ⟨hverdicts, bear, cio, calibrated, hrecords⟩
    · cases h

omit [FloorRing K] in
theorem bookStage_committed {pooled : List (SecurityId × PooledForecast K)}
    (h : bookStage fns sha256 F cfg s a pooled = .ok step) (hc : step.run.status = .committed) :
    Commits fns cfg s a pooled step := by
  obtain ⟨fit, -, h⟩ := Except.bind_eq_ok.mp h
  obtain ⟨bear, -, h⟩ := Except.bind_eq_ok.mp h
  simp only at h
  split at h
  · cases h
  split at h
  · cases h
  · rw [unfinished_status h] at hc
    cases hc
  · split at h
    · rw [unfinished_status h] at hc
      cases hc
    · exact commit_eq_ok h

/-- The verdicts of a schedule. -/
def verdictsOf (schedule : List (Move K)) : List (Verdict K) := schedule.filterMap Move.verdict?

theorem votingStage_eq_ok {first : Runner.Result K} {vs : List (Verdict K)}
    (h : (votingStage fl py cfg s).run.run a = (.ok first, a')) (ha : Collected s.inputs a vs a.stored) :
    Extended a a' ∧ Collected s.inputs a' (vs ++ verdictsOf s.first) (a.stored ++ first.completed) := by
  obtain ⟨t, t', hget, h⟩ := bind_eq_ok.mp h
  cases hget
  exact callAgents_eq_ok h (List.Sublist.refl _) ha (List.Subset.refl _)

theorem redTeamStage_eq_ok {redIds : List SecurityId} {status : RunStatus} {vs : List (Verdict K)} {keys : List TaskKey}
    (h : (redTeamStage fl py cfg s redIds keys).run.run a = (.ok status, a')) (ha : Collected s.inputs a vs keys) :
    Extended a a' ∧ ∃ more, Collected s.inputs a' (vs ++ verdictsOf s.second) (keys ++ more) := by
  unfold redTeamStage at h
  split at h
  · split at h
    · next hnone =>
      cases h
      refine ⟨⟨rfl, rfl, rfl⟩, [], ?_⟩
      rw [verdictsOf, List.isEmpty_iff.mp hnone, List.filterMap_nil, List.append_nil, List.append_nil]
      exact ha
    · cases h
  · obtain ⟨second, t, hcall, h⟩ := bind_eq_ok.mp h
    cases h
    obtain ⟨hext, hcollected⟩ := callAgents_eq_ok hcall List.filter_sublist ha (List.Subset.refl _)
    exact ⟨hext, second.completed, hcollected⟩

/-- What a committed execution went through. -/
theorem execute_committed {vs : List (Verdict K)} (ha : Collected s.inputs a vs a.stored)
    (h : (execute fl py fns sha256 F cfg s).run.run a = (.ok step, a')) (hc : step.run.status = .committed) :
    ∃ first a₁ pooled more, (votingStage fl py cfg s).run.run a = (.ok first, a₁) ∧
      Collected s.inputs a₁ (vs ++ verdictsOf s.first) (a.stored ++ first.completed) ∧
      poolVerdicts fns cfg s a₁.voters = .ok pooled ∧ Extended a a' ∧
      Collected s.inputs a' (vs ++ verdictsOf s.first ++ verdictsOf s.second) (a.stored ++ first.completed ++ more) ∧
      Commits fns cfg s a' pooled step := by
  obtain ⟨seeded, t, hget, h⟩ := bind_eq_ok.mp h
  cases hget
  obtain ⟨first, a₁, hfirst, h⟩ := bind_eq_ok.mp h
  obtain ⟨t, t', hget, h⟩ := bind_eq_ok.mp h
  cases hget
  obtain ⟨hext, hcollected⟩ := votingStage_eq_ok hfirst ha
  split at h
  · rw [ofExcept_run] at h
    rw [unfinished_status (Prod.mk.inj h).1] at hc
    cases hc
  · obtain ⟨pooled, t, hpooled, h⟩ := bind_eq_ok.mp h
    rw [ofExcept_run] at hpooled
    obtain ⟨hpool, rfl⟩ := Prod.mk.inj hpooled
    obtain ⟨redIds, t, hred, h⟩ := bind_eq_ok.mp h
    rw [ofExcept_run] at hred
    obtain ⟨-, rfl⟩ := Prod.mk.inj hred
    obtain ⟨second, a₂, hsecond, h⟩ := bind_eq_ok.mp h
    obtain ⟨t, t', hget, h⟩ := bind_eq_ok.mp h
    cases hget
    obtain ⟨hext', more, hcollected'⟩ := redTeamStage_eq_ok hsecond hcollected
    split at h
    · rw [ofExcept_run] at h
      rw [unfinished_status (Prod.mk.inj h).1] at hc
      cases hc
    · rw [ofExcept_run] at h
      obtain ⟨hbook, rfl⟩ := Prod.mk.inj h
      refine ⟨first, a₁, pooled, more, hfirst, hcollected, hpool, ⟨?_, ?_, ?_⟩, hcollected', bookStage_committed hbook hc⟩
      · exact hext'.runId.trans hext.runId
      · exact hext'.asOf.trans hext.asOf
      · exact hext'.stored.trans hext.stored

omit [FloorRing K] in
/-- A decision is that of a pool of its entity's verdicts. -/
theorem decisions_reproduced {pooled : List (SecurityId × PooledForecast K)} {vs vs' : List (AgentVerdict K)}
    (hpooled : poolVerdicts fns cfg s vs = .ok pooled) (hc : Commits fns cfg s a pooled step) (hperm : vs.Perm vs') :
    ∀ d ∈ step.decisions, Reproduces fns cfg s vs' d.decision := by
  obtain ⟨bear, cio, calibrated, hrecords⟩ := hc.decisions
  obtain ⟨records, hrecords, h⟩ := Except.bind_eq_ok.mp hrecords
  obtain ⟨forecasts, hforecasts, hpool⟩ := Except.bind_eq_ok.mp hpooled
  injection h with h
  injection hpool with hpool
  intro d hd
  obtain ⟨ds, hds, hd⟩ := List.mem_flatten.mp (h.symm ▸ hd)
  obtain ⟨x, hx, hx'⟩ := Forall₂.exists_of_mem_right (Except.mapM_eq_ok.mp hrecords) hds
  obtain ⟨pool, hpoolmem, hdecision⟩ := Forall₂.exists_of_mem_right (Except.mapM_eq_ok.mp hx') hd
  -- the decision is about the entity of the forecast
  obtain ⟨p, hp, hdecision⟩ := Except.bind_eq_ok.mp hdecision
  obtain ⟨weight, -, hdecision⟩ := Except.bind_eq_ok.mp hdecision
  injection hdecision with hdecision
  subst hdecision
  have hxin : x ∈ pooled := (List.perm_insertionSort _ _).mem_iff.mp hx
  rw [← hpool] at hxin
  have hsome : some x ∈ forecasts := by simpa using hxin
  obtain ⟨group, hgroup, hforecast⟩ := Forall₂.exists_of_mem_right (Except.mapM_eq_ok.mp hforecasts) hsome
  obtain ⟨token, -, rfl⟩ := List.mem_map.mp hgroup
  unfold poolGroup at hforecast
  split at hforecast
  · cases hforecast
  · cases hforecast
  · next forecast hforecast' =>
    split at hforecast
    · cases hforecast
    · cases hforecast
      obtain ⟨v, hv, htoken⟩ := poolAgentVerdicts_token hforecast'
      have hsame : forecast.entityToken = token := by
        rw [htoken]
        simpa using (List.mem_filter.mp hv).2
      refine ⟨forecast, ?_, pool, hpoolmem, rfl, hp⟩
      rw [← hforecast', ← poolAgentVerdicts_perm (hperm.filter _), hsame]

omit [FloorRing K] in
/-- Whatever an execution flushes, it is records of verdicts. -/
theorem bookStage_verdicts {pooled : List (SecurityId × PooledForecast K)}
    (h : bookStage fns sha256 F cfg s a pooled = .ok step) :
    newVerdictRecords s.inputs a true = .ok step.verdicts := by
  obtain ⟨fit, -, h⟩ := Except.bind_eq_ok.mp h
  obtain ⟨bear, -, h⟩ := Except.bind_eq_ok.mp h
  simp only at h
  split at h
  · cases h
  split at h
  · cases h
  · exact unfinished_verdicts h
  · split at h
    · exact unfinished_verdicts h
    · exact (commit_eq_ok h).verdicts

theorem execute_verdicts (h : (execute fl py fns sha256 F cfg s).run.run a = (.ok step, a')) :
    newVerdictRecords s.inputs a' true = .ok step.verdicts := by
  obtain ⟨seeded, t, hget, h⟩ := bind_eq_ok.mp h
  obtain ⟨first, a₁, -, h⟩ := bind_eq_ok.mp h
  obtain ⟨t, t', hget, h⟩ := bind_eq_ok.mp h
  cases hget
  split at h
  · rw [ofExcept_run] at h
    obtain ⟨hstep, rfl⟩ := Prod.mk.inj h
    exact unfinished_verdicts hstep
  · obtain ⟨pooled, t, -, h⟩ := bind_eq_ok.mp h
    obtain ⟨redIds, t, -, h⟩ := bind_eq_ok.mp h
    obtain ⟨second, a₂, -, h⟩ := bind_eq_ok.mp h
    obtain ⟨t, t', hget, h⟩ := bind_eq_ok.mp h
    cases hget
    split at h
    · rw [ofExcept_run] at h
      obtain ⟨hstep, rfl⟩ := Prod.mk.inj h
      exact unfinished_verdicts hstep
    · rw [ofExcept_run] at h
      obtain ⟨hstep, rfl⟩ := Prod.mk.inj h
      exact bookStage_verdicts hstep

end Committed

/-! ### Histories -/

section Histories
variable {sha256 : String → Sha256Hex} {json : AuditJson K} {db db' : RunTables K (Verdict K)}

theorem rows_of_sublist (hdb : Rows db) (hv : db'.agentVerdicts.Sublist db.agentVerdicts)
    (hr : ∀ id, (db.run? id).isSome → (db'.run? id).isSome) : Rows db' where
  unique := hdb.unique.sublist (hv.map _)
  agent r hr' := hdb.agent r (hv.subset hr')
  run r hr' := hr _ (hdb.run r (hv.subset hr'))

theorem isSome_updateRun (db : RunTables K (Verdict K)) (runId : UUID) (cond : RunRow K → Bool) {set : RunRow K → RunRow K}
    (hset : ∀ r, (set r).runId = r.runId) (id : UUID) (h : (db.run? id).isSome) :
    ((db.updateRun runId cond set).run? id).isSome := by
  rw [Sink.run?_updateRun db runId cond hset]
  split
  · rwa [Option.isSome_map]
  · exact h

/-- A flush of records of verdicts. -/
theorem rows_flush {step : StepArtifacts K (Verdict K)} (hdb : Rows db)
    (hagent : ∀ r ∈ step.verdicts, r.agent = r.verdict.agent) (h : Sink.flushStep sha256 json db step = .ok db') : Rows db' := by
  have hverdicts := Sink.flushStep_verdicts h
  have hrun := (Sink.flushStep_eq_ok h).run?
  have hstored : ∀ id, id = step.run.runId ∨ (db.run? id).isSome → (db'.run? id).isSome := by
    intro id hid
    rw [hrun]
    split
    · rfl
    · next hne => exact hid.resolve_left hne
  refine ⟨?_, fun r hr => ?_, fun r hr => ?_⟩
  · rw [hverdicts]
    exact KeyedTable.unique_insertAll hdb.unique _
  · rw [hverdicts] at hr
    rcases KeyedTable.mem_of_mem_insertAll hr with hr | hr
    · exact hdb.agent r hr
    · exact hagent r hr
  · rw [hverdicts] at hr
    rcases KeyedTable.mem_of_mem_insertAll hr with hr | hr
    · exact hstored _ (Or.inr (hdb.run r hr))
    · exact hstored _ (Or.inl (step.verdicts_run r hr))

/-- A write of another kind. -/
theorem rows_write {op : Sink.Op K (Verdict K)} (hdb : Rows db) (hop : ∀ step, op ≠ .flushStep step)
    (h : Sink.perform sha256 json db op = .ok db') : Rows db' := by
  cases op with
  | flushStep step => exact absurd rfl (hop step)
  | recordAnchor anchor =>
    rw [Sink.upsertAnchor_eq_ok h]
    exact rows_of_sublist hdb (List.Sublist.refl _) fun _ => id
  | markAnchored anchor =>
    obtain ⟨⟨t, moved⟩, ht, rfl⟩ := Except.map_eq_ok.mp h
    obtain ⟨db₁, h₁, rfl⟩ := Sink.advanceToAnchored_eq_ok ht
    rw [Sink.upsertAnchor_eq_ok h₁]
    exact rows_of_sublist hdb (List.Sublist.refl _) (isSome_updateRun { db with commitmentAnchors := _ } _ _ fun _ => rfl)
  | markExecuted runId endedAt =>
    cases h
    exact rows_of_sublist hdb (List.Sublist.refl _) (isSome_updateRun db _ _ fun _ => rfl)
  | recordHalt event =>
    obtain ⟨⟨t, moved⟩, ht, rfl⟩ := Except.map_eq_ok.mp h
    have hhalt := Sink.recordHalt_eq_ok ht
    refine rows_of_sublist hdb ?_ fun id hid => ?_
    · rw [hhalt.frame]
    · rw [hhalt.run?]
      split
      · rwa [Option.isSome_map]
      · exact hid
  | resetRun runId actor reason now =>
    have hreset := Sink.resetRun_eq_ok h
    refine rows_of_sublist hdb ?_ fun id hid => ?_
    · rw [show Sink.perform sha256 json db (.resetRun runId actor reason now) = Store.resetRun db runId actor reason now from rfl]
        at h
      unfold Store.resetRun at h
      split at h
      · cases h
      · split_ifs at h
        cases h
        exact List.filter_sublist
    · rw [hreset.run?]
      split
      · rwa [Option.isSome_map]
      · exact hid

end Histories

/-- What moves the tables: an attempt at a run, or a write of another kind. -/
inductive Happening (K : Type) [Field K] [LinearOrder K] where
  | attempt (cfg : PipelineConfig K) (s : Surroundings K) (runId : UUID) (asOf : AwareDatetime)
  | write (op : Sink.Op K (Verdict K)) (h : ∀ step, op ≠ .flushStep step)

section Runs
variable [FloorRing K] (fl : PyFloat K) (py : PyText) (fns : Pooling.PoolFns K) (sha256 : String → Sha256Hex)
  (F : Json.FloatText K) (json : AuditJson K)

/-- The tables after a history. -/
def history (db : RunTables K (Verdict K)) (hs : List (Happening K)) : RunTables K (Verdict K) :=
  hs.foldl (fun db h => match h with
    | .attempt cfg s runId asOf => (runStep fl py fns sha256 F cfg s json db runId asOf).1
    | .write op _ => Sink.step sha256 json db op) db

/-- The verdicts that an attempt pools: what it has collected when its first batch is over. -/
def pooledVotes (cfg : PipelineConfig K) (s : Surroundings K) (db : RunTables K (Verdict K)) (runId : UUID)
    (asOf : AwareDatetime) : List (AgentVerdict K) :=
  match begin_ cfg s db runId asOf with
  | .ok (some a) => ((votingStage fl py cfg s).run.run a).2.voters
  | _ => []

variable {fl py fns sha256 F json} {cfg : PipelineConfig K} {s : Surroundings K} {db db' : RunTables K (Verdict K)}
  {runId : UUID} {asOf : AwareDatetime}

omit [FloorRing K] in
theorem rows_recordFailure {a : Attempt K} {e : PipelineError} (hdb : Rows db) :
    Rows (recordFailure sha256 cfg s json db a e) := by
  unfold recordFailure
  split
  · exact hdb
  · next step hstep =>
    rw [Sink.step, Sink.perform]
    cases hflush : Sink.flushStep sha256 json db step with
    | error e => exact hdb
    | ok db' =>
      have hrecords := newVerdictRecords_eq_ok (unfinished_verdicts hstep)
      exact rows_flush hdb (fun r hr => (hrecords r hr).agent) hflush

theorem rows_runStep (hdb : Rows db) : Rows (runStep fl py fns sha256 F cfg s json db runId asOf).1 := by
  unfold runStep
  split
  · exact hdb
  · exact hdb
  · next a hbegin =>
    split
    · exact rows_recordFailure hdb
    · next step a' hexecute =>
      split
      · exact rows_recordFailure hdb
      · next db' hflush =>
        have hrecords := newVerdictRecords_eq_ok (execute_verdicts hexecute)
        exact rows_flush hdb (fun r hr => (hrecords r hr).agent) hflush

theorem rows_history {hs : List (Happening K)} (hdb : Rows db) : Rows (history fl py fns sha256 F json db hs) := by
  induction hs generalizing db with
  | nil => exact hdb
  | cons h hs ih =>
    refine ih ?_
    cases h with
    | attempt cfg s runId asOf => exact rows_runStep hdb
    | write op hop =>
      simp only [Sink.step]
      cases hperform : Sink.perform sha256 json db op with
      | error e => exact hdb
      | ok db' => exact rows_write hdb hop hperform

/-- On record of a committed run is what was pooled, and what the second batch brought. -/
theorem storedVotes_committed {step : StepArtifacts K (Verdict K)} (hdb : Rows db)
    (h : runStep fl py fns sha256 F cfg s json db runId asOf = (db', .ok (some step))) (hc : step.run.status = .committed) :
    (storedVotes db' runId).Perm (pooledVotes fl py cfg s db runId asOf ++ votes (verdictsOf s.second)) ∧
      ∀ vs, (pooledVotes fl py cfg s db runId asOf).Perm vs → ∀ d ∈ step.decisions, Reproduces fns cfg s vs d.decision := by
  unfold runStep at h
  split at h
  · cases h
  · cases h
  next a hbegin =>
  obtain ⟨rfl, rows, hrows, hstored, hseeded⟩ := begin_eq_ok hdb hbegin
  split at h
  · cases h
  next step' a' hexecute =>
  split at h
  · cases h
  next t hflush =>
  cases h
  obtain ⟨first, a₁, pooled, more, hfirst, hcollected, hpooled, hext, hcollected', hcommits⟩ := execute_committed hseeded hexecute hc
  have hpool : pooledVotes fl py cfg s db a.runId asOf = a₁.voters := by
    rw [pooledVotes, hbegin]
    simp only [hfirst]
  rw [hpool]
  refine ⟨?_, fun vs hvs => decisions_reproduced hpooled hcommits hvs⟩
  rw [← hext.stored, List.append_assoc, List.append_assoc] at hcollected'
  have htasks := hseeded.tasks
  rw [← hext.runId, ← hext.stored] at htasks
  obtain ⟨hperm, hdistinct⟩ := newVerdictRecords_perm hcollected' htasks hcommits.verdicts
  have hflushed := storedVotes_flush hdb (hext.runId ▸ hrows) (hext.stored.trans hstored)
    (newVerdictRecords_eq_ok hcommits.verdicts) hdistinct hflush
  rw [← hext.runId, hflushed, hcollected.holds.1, votes_append, List.append_assoc, ← votes_append (verdictsOf s.first)]
  refine List.Perm.append ?_ (hperm.filterMap _)
  rw [hext.runId]
  exact ((hrows.symm.map _).filterMap _)

/-- The record of a committed run is what was pooled, and reproduces its decisions, exactly when no voting agent's call
    returned a verdict in the second batch. -/
theorem storedVotes_iff {hs : List (Happening K)} {step : StepArtifacts K (Verdict K)} (h₀ : db.agentVerdicts = [])
    (h : runStep fl py fns sha256 F cfg s json (history fl py fns sha256 F json db hs) runId asOf = (db', .ok (some step)))
    (hc : step.run.status = .committed) :
    ((storedVotes db' runId).Perm (pooledVotes fl py cfg s (history fl py fns sha256 F json db hs) runId asOf) ∧
        ∀ d ∈ step.decisions, Reproduces fns cfg s (storedVotes db' runId) d.decision) ↔
      ∀ m ∈ s.second, ∀ v, m.verdict? ≠ some (.vote v) := by
  have hempty : Rows db := ⟨by rw [KeyedTable.Unique, h₀]; exact List.nodup_nil, by simp [h₀], by simp [h₀]⟩
  obtain ⟨hperm, hreproduced⟩ := storedVotes_committed (rows_history hempty) h hc
  have hnone : votes (verdictsOf s.second) = [] ↔ ∀ m ∈ s.second, ∀ v, m.verdict? ≠ some (.vote v) := by
    rw [votes, verdictsOf, List.filterMap_eq_nil_iff]
    constructor
    · intro h m hm v hv
      have hnone := h (.vote v) (List.mem_filterMap.mpr ⟨m, hm, hv⟩)
      cases hnone
    · intro h v hv
      obtain ⟨m, hm, hmv⟩ := List.mem_filterMap.mp hv
      cases v with
      | vote v => exact absurd hmv (h m hm v)
      | red v => rfl
  rw [← hnone]
  constructor
  · rintro ⟨hsame, -⟩
    have hlength := (hsame.symm.trans hperm).length_eq
    rw [List.length_append] at hlength
    exact List.length_eq_zero_iff.mp (by omega)
  · intro hnil
    rw [hnil, List.append_nil] at hperm
    exact ⟨hperm, hreproduced _ hperm.symm⟩

end Runs
/-! ### A voter that answers late -/

section Late
open Partitions (onePartitioner oneSecurity plainFloat plainText)
open Runner (CallTelemetry)

/-- Functions with the values that even odds need: `log 1`, `exp 0` and `sqrt 0`. -/
def evenFns : Pooling.PoolFns ℚ := ⟨⟨id, fun x => 1 + x⟩, fun x => x - 1⟩

def evenOdds : Probability ℚ := ⟨1 / 2, by norm_num⟩

def oneCitation : EvidenceRef := ⟨.features, ⟨"FIN_1", by decide⟩, ⟨"note", by decide⟩⟩

def oneEnvelope : Envelope := ⟨⟨1⟩, oneSecurity.entityToken, ⟨Renderer.day, 0⟩, ⟨"v1", Samples.label_v1⟩, ⟨"m", by decide⟩, true⟩

/-- An agent that sees even odds. -/
def evenVote (agent : AgentName) (h : agent ∈ votingAgents) : AgentVerdict ℚ :=
  ⟨⟨.hold, evenOdds, evenOdds, evenOdds, [oneCitation], [], .full, by decide, by decide⟩, oneEnvelope, agent, h⟩

def oneCaution : RedTeamVerdict := ⟨⟨.low, ⟨"risk", by decide⟩, .d21, [oneCitation], by decide⟩, oneEnvelope⟩

def freeCall : CallTelemetry ℚ := ⟨⟨0, nonNegative_zero ℚ⟩, none, none, none⟩

/-- A job that starts, gets through the gate and ends. -/
def runJob (i : Nat) (o : Runner.Outcome ℚ) : List (Move ℚ) := [.start i, .enter i, .finish i o]

def answer (v : Verdict ℚ) : Runner.Outcome ℚ := .verdict v 0 false (some freeCall)

def oneInputs : StepInputs ℚ where
  entities := [oneSecurity]
  partitioner := onePartitioner
  baseRates _ := none
  fitted _ := none
  independentPeriods _ := 0
  history := none
  ids_unique := List.nodup_singleton _
  tokens_unique := List.nodup_singleton _

/-- The value agent's first call is discarded and its second one answers. -/
def lateAnswer : Surroundings ℚ where
  inputs := oneInputs
  first := runJob 0 (.discarded 0 (some .unparseable)) ++
    runJob 1 (answer (.vote (evenVote .qualityCatalyst (by decide)))) ++
    runJob 2 (answer (.vote (evenVote .insider (by decide)))) ++
    runJob 3 (answer (.vote (evenVote .technical Samples.technical_votes))) ++
    runJob 4 (answer (.vote (evenVote .macroNarrative (by decide))))
  second := runJob 0 (answer (.vote (evenVote .value Samples.value_votes))) ++ [.start 1, .start 2, .start 3, .start 4] ++
    runJob 5 (answer (.red oneCaution))
  cio book := .result ⟨book, none, false⟩
  started := ⟨Renderer.day, 0⟩
  now := ⟨Renderer.day, 0⟩
  spentUsd := ⟨0, nonNegative_zero ℚ⟩
  deadLetters := []
  failure _ := ""

def oneRisk : RiskConfig ℚ where
  longOnly := true
  maxPosition := ⟨0.08, by norm_num⟩
  maxSector := ⟨0.30, by norm_num⟩
  volTargetAnnual := ⟨0.12, by norm_num⟩
  minPosition := ⟨0.01, by norm_num⟩
  entryThreshold := ⟨0.56, by norm_num⟩
  k := ⟨0.02, by norm_num⟩
  dispersionLambda := ⟨0.5, by norm_num⟩
  rankTopM := 8
  edgeHurdle := ⟨0.04, by norm_num⟩
  committeeK := ⟨0.5, by norm_num⟩
  committeeDispersionLambda := ⟨0, nonNegative_zero ℚ⟩
  bearMultiplier _ := ⟨1, Samples.probability_one ℚ⟩
  cioVetoBudget := ⟨0.20, by norm_num⟩
  killSwitchDailyLoss := ⟨0.03, by norm_num⟩
  modeledCostBps := ⟨5, by norm_num⟩
  rankTopM_pos := Samples.eight_pos
  longOnly_true := rfl
  minPosition_pos := by norm_num
  minPosition_lt := by norm_num
  maxPosition_le := by norm_num [maxPositionCap]
  maxSector_ge := by norm_num
  entryThreshold_range := by norm_num

def oneConfig : PipelineConfig ℚ where
  mode := .backtest
  configHash := Sink.zeroHex
  committee := ⟨(0.02, 0.98), ⟨0.05, by norm_num⟩, 8, ⟨13, by norm_num⟩, fun _ => ⟨1, Samples.one_positive ℚ⟩, by norm_num,
    by norm_num [votingAgents]⟩
  risk := oneRisk
  horizons := [.d5, .d21, .d63]
  primary := .d21
  concurrency := 16

def oneTables : RunTables ℚ (Verdict ℚ) := ⟨[⟨1, Samples.one_securityId⟩], [], [], [], [], [], [], [], [], [], [], []⟩

/-- The step of a new run that meets this. -/
def lateStep : RunTables ℚ (Verdict ℚ) × Except PipelineError (Option (StepArtifacts ℚ (Verdict ℚ))) :=
  runStep plainFloat plainText evenFns (fun _ => Sink.zeroHex) decimalText oneConfig lateAnswer Sink.noJson oneTables
    ⟨1⟩ ⟨Renderer.day, 0⟩

/-- The step commits, and so many votes of run 1 are on record. -/
def commitsVotes (n : Nat) : RunTables ℚ (Verdict ℚ) × Except PipelineError (Option (StepArtifacts ℚ (Verdict ℚ))) → Bool
  | (db, .ok (some step)) => decide (step.run.status = .committed ∧ (storedVotes db ⟨1⟩).length = n)
  | _ => false

theorem lateStep_committed : ∃ db' step, lateStep = (db', .ok (some step)) ∧ step.run.status = .committed ∧
    (storedVotes db' ⟨1⟩).length = 5 := by
  have h : commitsVotes 5 lateStep = true := by decide +kernel
  rcases hstep : lateStep with ⟨db', e | (_ | step)⟩
  · rw [hstep] at h
    cases h
  · rw [hstep] at h
    cases h
  · rw [hstep] at h
    exact ⟨db', step, rfl, of_decide_eq_true h⟩

/-- The vote that came late is on record, and was not pooled. -/
theorem late_vote_not_pooled : ∃ db' step, lateStep = (db', .ok (some step)) ∧ step.run.status = .committed ∧
    ¬((storedVotes db' ⟨1⟩).Perm (pooledVotes plainFloat plainText oneConfig lateAnswer oneTables ⟨1⟩ ⟨Renderer.day, 0⟩) ∧
      ∀ d ∈ step.decisions, Reproduces evenFns oneConfig lateAnswer (storedVotes db' ⟨1⟩) d.decision) := by
  obtain ⟨db', step, hstep, hcommitted, hstored⟩ := lateStep_committed
  have hpooled : (pooledVotes plainFloat plainText oneConfig lateAnswer oneTables ⟨1⟩ ⟨Renderer.day, 0⟩).length = 4 := by
    decide
  refine ⟨db', step, hstep, hcommitted, fun h => ?_⟩
  have hlength := h.1.length_eq
  rw [hstored, hpooled] at hlength
  cases hlength

theorem storedVotes_iff_late : ∃ db' step, lateStep = (db', .ok (some step)) ∧
    (((storedVotes db' ⟨1⟩).Perm (pooledVotes plainFloat plainText oneConfig lateAnswer oneTables ⟨1⟩ ⟨Renderer.day, 0⟩) ∧
        ∀ d ∈ step.decisions, Reproduces evenFns oneConfig lateAnswer (storedVotes db' ⟨1⟩) d.decision) ↔
      ∀ m ∈ lateAnswer.second, ∀ v, m.verdict? ≠ some (.vote v)) := by
  obtain ⟨db', step, hstep, hcommitted, -⟩ := lateStep_committed
  have hrun : runStep plainFloat plainText evenFns (fun _ => Sink.zeroHex) decimalText oneConfig lateAnswer Sink.noJson
      (history plainFloat plainText evenFns (fun _ => Sink.zeroHex) decimalText Sink.noJson oneTables []) ⟨1⟩
      ⟨Renderer.day, 0⟩ = (db', .ok (some step)) := hstep
  exact ⟨db', step, hstep, storedVotes_iff rfl hrun hcommitted⟩

end Late
end Pipeline
end AsymmetricCommittee
