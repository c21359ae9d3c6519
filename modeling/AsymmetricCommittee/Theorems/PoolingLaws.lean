import AsymmetricCommittee.Theorems.PooledVerdicts
import AsymmetricCommittee.Contracts.Samples
import Mathlib.Algebra.Order.BigOperators.Group.List
import Mathlib.Tactic.Linarith

/-! Pooling is a weighted mean of the voters' logits. The floored weights are at least the floor and sum to 1 whatever the
    skills are, so the pooled logit lies among the voters' and rises with each of them. -/

namespace AsymmetricCommittee
namespace Pooling

/-! ### The floor -/

section Floor
variable {K : Type} [Field K] [LinearOrder K] {raw : List (AgentName × K)} {floor : K} {pinned : List AgentName}

/-- Every agent keeps its place. -/
theorem applyFloorFrom_agents (raw : List (AgentName × K)) (floor : K) (pinned : List AgentName) :
    (applyFloorFrom raw floor pinned).map Prod.fst = raw.map Prod.fst := by
  induction pinned using applyFloorFrom.induct raw floor with
  | case1 pinned h =>
    rw [applyFloorFrom, if_pos h, List.map_map]
    rfl
  | case2 pinned h hnew =>
    rw [applyFloorFrom, if_neg h, dif_pos hnew, List.map_map]
    rfl
  | case3 pinned h hnew ih => rw [applyFloorFrom, if_neg h, dif_neg hnew, ih]

/-- The pinned agents are different agents of the list. -/
structure Pinned (raw : List (AgentName × K)) (pinned : List AgentName) : Prop where
  nodup : pinned.Nodup
  agents : pinned ⊆ raw.map Prod.fst

omit [Field K] in
theorem Pinned.start (hraw : (raw.map Prod.fst).Nodup) (floor : K) :
    Pinned raw ((raw.filter fun x => x.2 < floor).map Prod.fst) :=
  ⟨hraw.sublist (List.filter_sublist.map _), List.Sublist.subset (List.filter_sublist.map _)⟩

theorem Pinned.next (h : Pinned raw pinned) : Pinned raw (pinned ++ newlyPinned raw floor pinned) := by
  have hnew : ∀ a ∈ newlyPinned raw floor pinned, a ∈ raw.map Prod.fst ∧ a ∉ pinned := by
    intro a ha
    obtain ⟨x, hx, rfl⟩ := List.mem_map.mp (List.mem_dedup.mp ha)
    have hfree := List.mem_filter.mp (List.mem_of_mem_filter hx)
    exact ⟨List.mem_map_of_mem hfree.1, by simpa using hfree.2⟩
  refine ⟨List.nodup_append.mpr ⟨h.nodup, List.nodup_dedup _, ?_⟩, ?_⟩
  · rintro a ha _ hb rfl
    exact (hnew a hb).2 ha
  · intro a ha
    rcases List.mem_append.mp ha with ha | ha
    · exact h.agents ha
    · exact (hnew a ha).1

omit [Field K] [LinearOrder K] in
/-- As many entries are pinned as agents. -/
theorem Pinned.length_filter (hraw : (raw.map Prod.fst).Nodup) (h : Pinned raw pinned) :
    (raw.filter fun x => x.1 ∈ pinned).length = pinned.length := by
  have hperm : ((raw.filter fun x => x.1 ∈ pinned).map Prod.fst).Perm pinned := by
    refine (List.perm_ext_iff_of_nodup (hraw.sublist (List.filter_sublist.map _)) h.nodup).mpr fun a => ?_
    constructor
    · intro ha
      obtain ⟨x, hx, rfl⟩ := List.mem_map.mp ha
      simpa using (List.mem_filter.mp hx).2
    · intro ha
      obtain ⟨x, hx, rfl⟩ := List.mem_map.mp (h.agents ha)
      exact List.mem_map.mpr ⟨x, List.mem_filter.mpr ⟨hx, by simpa using ha⟩, rfl⟩
  simpa using hperm.length_eq

omit [LinearOrder K] in
/-- A sum over a list, split by a condition. -/
theorem sum_map_ite {α : Type} (l : List α) (p : α → Bool) (f g : α → K) :
    (l.map fun x => if p x then f x else g x).sum = ((l.filter p).map f).sum + ((l.filter fun x => !p x).map g).sum := by
  induction l with
  | nil => simp
  | cons x l ih => cases hp : p x <;> simp [hp, ih] <;> ring

omit [LinearOrder K] in
/-- Of a share-out: what is pinned and what the rest is scaled to make 1. -/
theorem sum_rescaled (hraw : (raw.map Prod.fst).Nodup) (h : Pinned raw pinned)
    (hfree : ((freeAgents raw pinned).map Prod.snd).sum ≠ 0) :
    (raw.map fun x => if x.1 ∈ pinned then floor else rescaled raw floor pinned x.2).sum = 1 := by
  have hsplit := sum_map_ite raw (fun x => decide (x.1 ∈ pinned)) (fun _ => floor) fun x => rescaled raw floor pinned x.2
  simp only [decide_eq_true_eq] at hsplit
  have hpinned : ((raw.filter fun x => x.1 ∈ pinned).map fun _ => floor).sum = pinned.length * floor := by
    rw [List.map_const', List.sum_replicate, h.length_filter hraw, nsmul_eq_mul]
  have hrest : (raw.filter fun x => !decide (x.1 ∈ pinned)) = freeAgents raw pinned := by
    rw [freeAgents]
    simp
  have hscaled : ((freeAgents raw pinned).map fun x => rescaled raw floor pinned x.2).sum = 1 - floor * pinned.length := by
    simp only [rescaled, mul_div_assoc]
    rw [List.sum_map_mul_right]
    exact mul_div_cancel₀ _ hfree
  rw [hsplit, hpinned, hrest, hscaled]
  ring

variable [IsStrictOrderedRing K]

/-- What the floor promises. -/
structure Floored (floor : K) (w : List (AgentName × K)) : Prop where
  least : ∀ x ∈ w, floor ≤ x.2
  total : (w.map Prod.snd).sum = 1

/-- Equal weights of no more agents than the floor allows for. -/
theorem floored_equal (hne : raw ≠ []) (hfloor : floor * raw.length ≤ 1) :
    Floored floor (raw.map fun x => (x.1, (1 : K) / raw.length)) := by
  have hpos : (0 : K) < raw.length := by exact_mod_cast List.length_pos_iff.mpr hne
  refine ⟨fun x hx => ?_, ?_⟩
  · obtain ⟨y, -, rfl⟩ := List.mem_map.mp hx
    exact (le_div_iff₀ hpos).mpr hfloor
  · rw [List.map_map, show (Prod.snd ∘ fun x : AgentName × K => (x.1, (1 : K) / raw.length)) = fun _ => (1 : K) / raw.length
      from rfl, List.map_const', List.sum_replicate, nsmul_eq_mul]
    exact mul_one_div_cancel hpos.ne'

/-- Weights are floored whatever agents are pinned first: a share-out stops with all weights at the floor or above. -/
theorem floored_applyFloorFrom (hne : raw ≠ []) (hraw : (raw.map Prod.fst).Nodup) (hfloor : floor * raw.length ≤ 1)
    (h : Pinned raw pinned) : Floored floor (applyFloorFrom raw floor pinned) := by
  induction pinned using applyFloorFrom.induct raw floor with
  | case1 pinned hnone =>
    rw [applyFloorFrom, if_pos hnone]
    exact floored_equal hne hfloor
  | case2 pinned hsome hnew =>
    rw [applyFloorFrom, if_neg hsome, dif_pos hnew]
    have hsum := not_le.mp (not_or.mp hsome).2
    refine ⟨fun x hx => ?_, ?_⟩
    · obtain ⟨y, hy, rfl⟩ := List.mem_map.mp hx
      dsimp only
      split
      · exact le_rfl
      · next hfree =>
        refine not_lt.mp fun hlow => ?_
        have hmem : y ∈ freeAgents raw pinned := List.mem_filter.mpr ⟨hy, by simpa using hfree⟩
        have hin : y.1 ∈ newlyPinned raw floor pinned :=
          List.mem_dedup.mpr (List.mem_map_of_mem (List.mem_filter.mpr ⟨hmem, decide_eq_true hlow⟩))
        rw [hnew] at hin
        cases hin
    · rw [List.map_map]
      exact sum_rescaled hraw h hsum.ne'
  | case3 pinned hsome hnew ih =>
    rw [applyFloorFrom, if_neg hsome, dif_neg hnew]
    exact ih h.next

theorem floored_applyFloor (hne : raw ≠ []) (hraw : (raw.map Prod.fst).Nodup) (hfloor : floor * raw.length ≤ 1) :
    Floored floor (applyFloor raw floor) := floored_applyFloorFrom hne hraw hfloor (Pinned.start hraw floor)

end Floor

/-! ### One horizon -/

section Horizons
variable {K : Type} [Field K] [LinearOrder K] {fns : PoolFns K} {baseRates : Horizon → Option K} {config : CommitteeConfig K}
  {history : Option (History K)} {horizon : Horizon} {agents : List AgentName} {vs vs' : List (AgentVerdict K)}

/-- What is used of `math`. -/
structure Monotonic (fns : PoolFns K) : Prop where
  log : ∀ x y, 0 < x → x < y → fns.log x < fns.log y
  exp : ∀ x y, x ≤ y → fns.exp x ≤ fns.exp y
  exp_zero : fns.exp 0 = 1
  exp_nonneg : ∀ x, 0 ≤ fns.exp x
  sqrt_nonneg : ∀ x, 0 ≤ x → 0 ≤ fns.sqrt x

/-- Every history has resolved forecasts. -/
def Resolved (history : Option (History K)) : Prop :=
  ∀ records ∈ history, ∀ agent horizon, ∀ record ∈ records agent horizon, record.outcomes ≠ []

/-- The weights of some agents: they do not depend on what the agents say. -/
def weightsAt (fns : PoolFns K) (agents : List AgentName) (baseRates : Horizon → Option K) (config : CommitteeConfig K)
    (history : Option (History K)) (horizon : Horizon) : Except PoolingError (List (AgentName × K)) := do
  let lam := lambdaT fns agents horizon history config
  let skill ← poolAt.skills baseRates config history horizon agents lam (1 / agents.length)
  return applyFloor (skill.map fun s => (s.1, (1 - lam) * (1 / agents.length) + lam * s.2)) config.weightFloor.val

/-- The logits of some verdicts. -/
def logits (fns : PoolFns K) (config : CommitteeConfig K) (horizon : Horizon) (vs : List (AgentVerdict K)) :
    List (AgentName × K) :=
  vs.map fun v => (v.agent, logit fns (probability v horizon) config.logitClip)

/-- The mean of some logits under weights. -/
def mean (w z : List (AgentName × K)) : K := (w.map fun x => x.2 * ((z.lookup x.1).getD 0)).sum

theorem poolAt_eq (vs : List (AgentVerdict K)) : poolAt fns vs baseRates config history horizon =
    (weightsAt fns (vs.map (·.agent)) baseRates config history horizon).bind fun w =>
      makePool horizon (mean w (logits fns config horizon vs)) (lambdaT fns (vs.map (·.agent)) horizon history config)
        (dispersion fns ((logits fns config horizon vs).map Prod.snd)) w := by
  rw [poolAt, weightsAt]
  cases poolAt.skills baseRates config history horizon (vs.map (·.agent))
    (lambdaT fns (vs.map (·.agent)) horizon history config) (1 / ((vs.map (·.agent)).length : K)) <;> rfl

theorem lambdaT_range [IsStrictOrderedRing K] (hfns : Monotonic fns) :
    0 ≤ lambdaT fns agents horizon history config ∧ lambdaT fns agents horizon history config ≤ 1 := by
  rw [lambdaT.eq_def]
  split
  · exact ⟨le_rfl, zero_le_one⟩
  · split
    · exact ⟨le_rfl, zero_le_one⟩
    · split
      · exact ⟨le_rfl, zero_le_one⟩
      · next t _ =>
        split
        · exact ⟨le_rfl, zero_le_one⟩
        · next hlate =>
          have hcast : (config.minPeriods : K) ≤ t := by exact_mod_cast (not_le.mp hlate).le
          have harg : -((t : K) - config.minPeriods) / config.tau.val ≤ 0 :=
            div_nonpos_of_nonpos_of_nonneg (by linarith) config.tau.property.le
          have hexp := hfns.exp _ _ harg
          rw [hfns.exp_zero] at hexp
          have hnonneg := hfns.exp_nonneg (-((t : K) - config.minPeriods) / config.tau.val)
          constructor <;> linarith

theorem some_of_mapM {α β : Type} {f : α → Option β} {l : List α} {r : List β} (h : l.mapM f = some r) :
    ∀ a ∈ l, ∃ b, f a = some b := by
  induction l generalizing r with
  | nil => simp
  | cons a l ih =>
    rw [List.mapM_cons] at h
    obtain ⟨b, hb, h⟩ := Option.bind_eq_some_iff.mp h
    obtain ⟨rest, hrest, -⟩ := Option.bind_eq_some_iff.mp h
    exact List.forall_mem_cons.mpr ⟨⟨b, hb⟩, ih hrest⟩

/-- Where shrinkage has begun every agent has a history. -/
theorem lambdaT_pos {records : History K} (h : 0 < lambdaT fns agents horizon (some records) config) :
    ∀ a ∈ agents, ∃ record, records a horizon = some record := by
  rw [lambdaT] at h
  split at h
  · exact absurd h (lt_irrefl 0)
  · next histories hsome => exact some_of_mapM hsome

omit [LinearOrder K] in
theorem brier_eq_ok (forecasts : List K) {outcomes : List Int} (h : outcomes ≠ []) (omega : K) :
    ∃ b, brier forecasts outcomes omega = .ok b := by
  rw [brier, if_neg h]
  exact ⟨_, rfl⟩

theorem skillOf_agent {records : History K} {baseRate omega : K} {a : AgentName} {s : AgentName × K}
    (h : skillOf horizon records baseRate omega a = .ok s) : a = s.1 := by
  rw [skillOf] at h
  split at h
  · cases h
  · obtain ⟨base, -, h⟩ := Except.bind_eq_ok.mp h
    obtain ⟨own, -, h⟩ := Except.bind_eq_ok.mp h
    rw [← Except.ok.inj h]

/-- Weights by skill are found for agents with resolved forecasts. -/
theorem skillWeights_eq_ok {records : History K} (hknown : ∀ a ∈ agents, ∃ record, records a horizon = some record)
    (hresolved : Resolved (some records)) (baseRate omega : K) :
    ∃ skill, skillWeights agents horizon records baseRate omega = .ok skill ∧ skill.map Prod.fst = agents := by
  have hone : ∀ a ∈ agents, ∃ s, skillOf horizon records baseRate omega a = .ok s := by
    intro a ha
    obtain ⟨record, hrecord⟩ := hknown a ha
    have hne := hresolved records rfl a horizon record hrecord
    obtain ⟨base, hbase⟩ := brier_eq_ok (List.replicate record.outcomes.length baseRate) hne omega
    obtain ⟨own, hown⟩ := brier_eq_ok record.forecasts hne omega
    rw [skillOf, hrecord]
    dsimp only
    rw [hbase, hown]
    exact ⟨_, rfl⟩
  obtain ⟨skill, hskill⟩ := Except.mapM_ok_of_forall hone
  have hpairs := Except.mapM_eq_ok.mp hskill
  have hagents : skill.map Prod.fst = agents :=
    (Forall₂.map_eq hpairs fun _ _ h => skillOf_agent h).symm.trans (List.map_id agents)
  rw [skillWeights, hskill]
  change ∃ s, (if (skill.map Prod.snd).sum ≤ 0 then pure _ else pure _ : Except PoolingError _) = .ok s ∧ _
  split
  · exact ⟨_, rfl, by rw [List.map_map]; exact List.map_id agents⟩
  · exact ⟨_, rfl, by rw [List.map_map]; exact hagents⟩

variable (fns config) in
theorem skills_eq_ok (hresolved : Resolved history) (hrate : (baseRates horizon).isSome) (equal : K) :
    ∃ skill, poolAt.skills baseRates config history horizon agents (lambdaT fns agents horizon history config) equal =
      .ok skill ∧ skill.map Prod.fst = agents := by
  have hequal : (agents.map fun a => (a, equal)).map Prod.fst = agents := by
    rw [List.map_map]
    exact List.map_id agents
  rw [poolAt.skills.eq_def]
  split
  · exact ⟨_, rfl, hequal⟩
  · next records =>
    split
    · next hpos =>
      obtain ⟨baseRate, hbase⟩ := Option.isSome_iff_exists.mp hrate
      rw [hbase]
      exact skillWeights_eq_ok (lambdaT_pos hpos) hresolved baseRate _
    · exact ⟨_, rfl, hequal⟩

/-- Agents that may vote together. -/
structure Electorate (agents : List AgentName) : Prop where
  nonempty : agents ≠ []
  nodup : agents.Nodup
  voting : agents ⊆ votingAgents

/-- The floor is no more than an equal share. -/
theorem Electorate.floor_le [IsStrictOrderedRing K] (h : Electorate agents) (config : CommitteeConfig K) :
    config.weightFloor.val * agents.length ≤ 1 := by
  have hlen : (agents.length : K) ≤ votingAgents.length := by
    exact_mod_cast (List.subperm_of_subset h.nodup h.voting).length_le
  exact (mul_le_mul_of_nonneg_left hlen config.weightFloor.property).trans config.floor_le

variable (fns config) in
/-- The weights of an electorate. -/
theorem weightsAt_eq_ok [IsStrictOrderedRing K] (hagents : Electorate agents) (hresolved : Resolved history)
    (hrate : (baseRates horizon).isSome) : ∃ w, weightsAt fns agents baseRates config history horizon = .ok w ∧
      w.map Prod.fst = agents ∧ Floored config.weightFloor.val w := by
  obtain ⟨skill, hskill, hfst⟩ := skills_eq_ok fns config hresolved hrate (1 / (agents.length : K))
  rw [weightsAt, hskill]
  generalize hraw : skill.map (fun s => (s.1, (1 - lambdaT fns agents horizon history config) * (1 / (agents.length : K)) +
    lambdaT fns agents horizon history config * s.2)) = raw
  have hrawAgents : raw.map Prod.fst = agents := by
    rw [← hraw, List.map_map]
    exact hfst
  have hne : raw ≠ [] := by
    rintro rfl
    exact hagents.nonempty hrawAgents.symm
  have hlen : raw.length = agents.length := by rw [← hrawAgents, List.length_map]
  refine ⟨applyFloor raw config.weightFloor.val, congrArg (fun r => Except.ok (applyFloor r _)) hraw, ?_, ?_⟩
  · exact (applyFloorFrom_agents raw _ _).trans hrawAgents
  · exact floored_applyFloor hne (hrawAgents ▸ hagents.nodup) (hlen ▸ hagents.floor_le config)

/-- A weight in its contract. -/
def weightOf (x : AgentName × K) : Except PoolingError (AgentWeight K) :=
  if h : 0 ≤ x.2 then .ok ⟨x.1, ⟨x.2, h⟩⟩ else .error .invalid

theorem weightOf_eq_ok {x : AgentName × K} {w : AgentWeight K} (h : weightOf x = .ok w) : x = (w.agent, w.weight.val) := by
  rw [weightOf] at h
  split at h
  · cases h
    rfl
  · cases h

variable (horizon) in
/-- A pool passes its contract. -/
theorem makePool_eq_ok (z : K) {lam disp : K} {w : List (AgentName × K)} (hagents : Electorate (w.map Prod.fst))
    (hw : ∀ x ∈ w, 0 ≤ x.2) (hlam : 0 ≤ lam ∧ lam ≤ 1) (hdisp : 0 ≤ disp) :
    ∃ pool, makePool horizon z lam disp w = .ok pool ∧ pool.horizon = horizon ∧ pool.logit = z ∧
      (pool.weights.map fun x => (x.agent, x.weight.val)) = w := by
  have hone : ∀ x ∈ w, ∃ y, weightOf x = .ok y := fun x hx => ⟨_, dif_pos (hw x hx)⟩
  obtain ⟨weights, hweights⟩ := Except.mapM_ok_of_forall hone
  have hmap : (weights.map fun x => (x.agent, x.weight.val)) = w :=
    (Forall₂.map_eq (Except.mapM_eq_ok.mp hweights) fun _ _ h => weightOf_eq_ok h).symm.trans (List.map_id w)
  have hnames : weights.map (·.agent) = w.map Prod.fst := by
    rw [← hmap, List.map_map]
    rfl
  have hvalid : weights ≠ [] ∧ (weights.map (·.agent)).Nodup ∧ ∀ x ∈ weights, x.agent ∈ votingAgents := by
    refine ⟨?_, hnames ▸ hagents.nodup, fun x hx => hagents.voting (hnames ▸ List.mem_map_of_mem hx)⟩
    rintro rfl
    exact hagents.nonempty hnames.symm
  refine ⟨⟨horizon, z, ⟨lam, hlam⟩, ⟨disp, hdisp⟩, weights, hvalid.1, hvalid.2.1, hvalid.2.2⟩, ?_, rfl, rfl, hmap⟩
  rw [makePool]
  change (w.mapM weightOf).bind _ = _
  rw [hweights]
  change dite _ _ _ = _
  rw [dif_pos hlam, dif_pos hdisp, dif_pos hvalid]
  rfl

theorem dispersion_nonneg [IsStrictOrderedRing K] (hfns : Monotonic fns) (values : List K) : 0 ≤ dispersion fns values := by
  rw [dispersion]
  split
  · exact le_rfl
  · refine hfns.sqrt_nonneg _ (div_nonneg (List.sum_nonneg fun y hy => ?_) (Nat.cast_nonneg _))
    obtain ⟨x, -, rfl⟩ := List.mem_map.mp hy
    exact sq_nonneg _

variable (config) in
/-- The pool of a horizon is the mean of the voters' logits under the agents' weights. -/
theorem poolAt_eq_ok [IsStrictOrderedRing K] (hfns : Monotonic fns) (hagents : Electorate (vs.map (·.agent)))
    (hresolved : Resolved history) (hrate : (baseRates horizon).isSome) :
    ∃ w pool, weightsAt fns (vs.map (·.agent)) baseRates config history horizon = .ok w ∧
      poolAt fns vs baseRates config history horizon = .ok pool ∧ pool.horizon = horizon ∧
      (pool.weights.map fun x => (x.agent, x.weight.val)) = w ∧ pool.logit = mean w (logits fns config horizon vs) := by
  obtain ⟨w, hw, hfst, hfloored⟩ := weightsAt_eq_ok fns config hagents hresolved hrate
  obtain ⟨pool, hpool, hhorizon, hlogit, hweights⟩ := makePool_eq_ok horizon
    (mean w (logits fns config horizon vs)) (hfst ▸ hagents)
    (fun x hx => config.weightFloor.property.trans (hfloored.least x hx)) (lambdaT_range hfns)
    (dispersion_nonneg hfns ((logits fns config horizon vs).map Prod.snd))
  refine ⟨w, pool, hw, ?_, hhorizon, hweights, hlogit⟩
  rw [poolAt_eq, hw]
  exact hpool

/-! ### Means -/

section Means
variable [IsStrictOrderedRing K] {w z z' : List (AgentName × K)}

/-- A mean lies between bounds on what it is a mean of. -/
theorem mean_between {floor lo hi : K} (hfloor : 0 ≤ floor) (hw : Floored floor w)
    (hz : ∀ x ∈ w, lo ≤ (z.lookup x.1).getD 0 ∧ (z.lookup x.1).getD 0 ≤ hi) : lo ≤ mean w z ∧ mean w z ≤ hi := by
  have hconst : ∀ c : K, (w.map fun x => x.2 * c).sum = c := by
    intro c
    rw [List.sum_map_mul_right, hw.total, one_mul]
  constructor
  · calc lo = (w.map fun x => x.2 * lo).sum := (hconst lo).symm
      _ ≤ mean w z := List.sum_le_sum fun x hx => mul_le_mul_of_nonneg_left (hz x hx).1 (hfloor.trans (hw.least x hx))
  · calc mean w z ≤ (w.map fun x => x.2 * hi).sum :=
          List.sum_le_sum fun x hx => mul_le_mul_of_nonneg_left (hz x hx).2 (hfloor.trans (hw.least x hx))
      _ = hi := hconst hi

theorem mean_mono {floor : K} (hfloor : 0 ≤ floor) (hw : Floored floor w)
    (hz : ∀ x ∈ w, (z.lookup x.1).getD 0 ≤ (z'.lookup x.1).getD 0) : mean w z ≤ mean w z' :=
  List.sum_le_sum fun x hx => mul_le_mul_of_nonneg_left (hz x hx) (hfloor.trans (hw.least x hx))

theorem mean_strictMono {floor : K} (hfloor : 0 < floor) (hw : Floored floor w)
    (hz : ∀ x ∈ w, (z.lookup x.1).getD 0 ≤ (z'.lookup x.1).getD 0)
    (hstrict : ∃ x ∈ w, (z.lookup x.1).getD 0 < (z'.lookup x.1).getD 0) : mean w z < mean w z' := by
  obtain ⟨x, hx, hlt⟩ := hstrict
  refine List.sum_lt_sum _ _ (fun y hy => ?_) ⟨x, hx, ?_⟩
  · exact mul_le_mul_of_nonneg_left (hz y hy) (hfloor.le.trans (hw.least y hy))
  · exact mul_lt_mul_of_pos_left hlt (hfloor.trans_le (hw.least x hx))

/-- Odds rise with the probability. -/
theorem odds_lt {q q' : K} (hq : q < q') (h1 : q' < 1) : q / (1 - q) < q' / (1 - q') := by
  rw [div_lt_div_iff₀ (by linarith) (by linarith)]
  nlinarith

theorem logit_strictMono (hfns : Monotonic fns) {clip : K × K} (hclip : 0 < clip.1 ∧ clip.1 < 0.5 ∧ 0.5 < clip.2 ∧ clip.2 < 1)
    {p p' : K} (h : min (max p clip.1) clip.2 < min (max p' clip.1) clip.2) : logit fns p clip < logit fns p' clip := by
  have hpos : 0 < min (max p clip.1) clip.2 :=
    lt_min (hclip.1.trans_le (le_max_right _ _)) (hclip.1.trans (hclip.2.1.trans hclip.2.2.1))
  have hone : min (max p' clip.1) clip.2 < 1 := (min_le_right _ _).trans_lt hclip.2.2.2
  exact hfns.log _ _ (div_pos hpos (by linarith)) (odds_lt h hone)

theorem logit_mono (hfns : Monotonic fns) {clip : K × K} (hclip : 0 < clip.1 ∧ clip.1 < 0.5 ∧ 0.5 < clip.2 ∧ clip.2 < 1)
    {p p' : K} (h : p ≤ p') : logit fns p clip ≤ logit fns p' clip := by
  rcases (min_le_min_right clip.2 (max_le_max_right clip.1 h)).lt_or_eq with hlt | heq
  · exact (logit_strictMono hfns hclip hlt).le
  · rw [logit, logit, heq]

omit [IsStrictOrderedRing K] in
/-- Each voter has its own logit. -/
theorem lookup_logits (hn : (vs.map (·.agent)).Nodup) {v : AgentVerdict K} (hv : v ∈ vs) :
    (logits fns config horizon vs).lookup v.agent = some (logit fns (probability v horizon) config.logitClip) := by
  induction vs with
  | nil => cases hv
  | cons u vs ih =>
    rw [List.map_cons, List.nodup_cons] at hn
    rw [logits, List.map_cons, List.lookup_cons]
    rcases List.mem_cons.mp hv with rfl | hv
    · rw [beq_self_eq_true]
    · have hne : (v.agent == u.agent) = false :=
        beq_eq_false_iff_ne.mpr fun heq => hn.1 (heq ▸ List.mem_map_of_mem hv)
      rw [hne]
      exact ih hn.2 hv

end Means

/-! ### The verdicts -/

/-- A verdict votes. -/
def counts (v : AgentVerdict K) : Bool := v.valid && v.dataSufficiency != .insufficient

/-- Verdicts of different agents on one entity. -/
structure OneEntity (vs : List (AgentVerdict K)) : Prop where
  agents : (vs.map (·.agent)).Nodup
  entity : ∀ v ∈ vs, ∀ v' ∈ vs, v.entityToken = v'.entityToken

theorem voters_perm (vs : List (AgentVerdict K)) : (voters vs).Perm (vs.filter counts) := List.perm_insertionSort _ _

theorem OneEntity.electorate (h : OneEntity vs) (hvoter : ∃ v ∈ vs, counts v = true) :
    Electorate ((voters vs).map (·.agent)) := by
  obtain ⟨v, hv, hcounts⟩ := hvoter
  refine ⟨?_, ?_, ?_⟩
  · intro hnil
    have hmem : v ∈ voters vs := (voters_perm vs).mem_iff.mpr (List.mem_filter.mpr ⟨hv, hcounts⟩)
    rw [List.map_eq_nil_iff.mp hnil] at hmem
    cases hmem
  · exact ((voters_perm vs).map _).nodup_iff.mpr (h.agents.sublist (List.filter_sublist.map _))
  · intro a ha
    obtain ⟨w, -, rfl⟩ := List.mem_map.mp ha
    exact w.votes

variable (config) in
/-- Verdicts that may be pooled are, at every horizon. -/
theorem poolAgentVerdicts_eq_ok [IsStrictOrderedRing K] (hfns : Monotonic fns) (h : OneEntity vs)
    (hvoter : ∃ v ∈ vs, counts v = true) (hresolved : Resolved history) (hrates : ∀ horizon, (baseRates horizon).isSome) :
    ∃ forecast, poolAgentVerdicts fns vs baseRates config history = .ok forecast ∧ ∀ horizon, ∃ pool,
      forecast.pool horizon = some pool ∧ poolAt fns (voters vs) baseRates config history horizon = .ok pool := by
  have hagents := h.electorate hvoter
  have hpools : ∀ horizon, ∃ pool, poolAt fns (voters vs) baseRates config history horizon = .ok pool ∧
      pool.horizon = horizon := by
    intro horizon
    obtain ⟨_, pool, -, hpool, hhorizon, -⟩ := poolAt_eq_ok config hfns hagents hresolved (hrates horizon)
    exact ⟨pool, hpool, hhorizon⟩
  obtain ⟨pool, h5, h5'⟩ := hpools .d5
  obtain ⟨pool', h21, h21'⟩ := hpools .d21
  obtain ⟨pool'', h63, h63'⟩ := hpools .d63
  have hmap : [Horizon.d5, .d21, .d63].mapM (poolAt fns (voters vs) baseRates config history) =
      .ok [pool, pool', pool''] := Except.mapM_eq_ok.mpr (.cons h5 (.cons h21 (.cons h63 .nil)))
  have hone : ¬∃ v ∈ vs, ∃ v' ∈ vs, v.entityToken ≠ v'.entityToken := by
    rintro ⟨v, hv, v', hv', hne⟩
    exact hne (h.entity v hv v' hv')
  rw [poolAgentVerdicts, if_neg (not_not.mpr h.agents), if_neg hone]
  cases hvoters : voters vs with
  | nil =>
    rw [hvoters] at hagents
    exact absurd rfl hagents.nonempty
  | cons v rest =>
    refine ⟨⟨v.entityToken, [pool, pool', pool''], List.cons_ne_nil _ _⟩, ?_, fun horizon => ?_⟩
    · rw [hvoters] at hmap
      dsimp only
      rw [hmap]
      rfl
    · rw [← hvoters]
      cases horizon with
      | d5 => exact ⟨pool, by simp [PooledForecast.pool, h5'], h5⟩
      | d21 => exact ⟨pool', by simp [PooledForecast.pool, h5', h21'], h21⟩
      | d63 => exact ⟨pool'', by simp [PooledForecast.pool, h5', h21', h63'], h63⟩

/-! ### Two sets of verdicts -/

/-- The same ballot with a probability that is not lower. -/
structure Raised (horizon : Horizon) (v v' : AgentVerdict K) : Prop where
  agent : v.agent = v'.agent
  entityToken : v.entityToken = v'.entityToken
  counts : counts v = counts v'
  probability : probability v horizon ≤ probability v' horizon

theorem forall₂_filter {α : Type} {R : α → α → Prop} {p : α → Bool} (hp : ∀ a b, R a b → p a = p b) {l l' : List α}
    (h : List.Forall₂ R l l') : List.Forall₂ R (l.filter p) (l'.filter p) := by
  induction h with
  | nil => exact .nil
  | @cons a b l l' hab _ ih =>
    rw [List.filter_cons, List.filter_cons, hp a b hab]
    split
    · exact .cons hab ih
    · exact ih

theorem forall₂_insertionSort {α κ : Type} [LinearOrder κ] {R : α → α → Prop} {key : α → κ}
    (hkey : ∀ a b, R a b → key a = key b) {l l' : List α} (h : List.Forall₂ R l l') :
    List.Forall₂ R (l.insertionSort fun a b => key a ≤ key b) (l'.insertionSort fun a b => key a ≤ key b) := by
  have hinsert : ∀ {a b : α} {l l' : List α}, R a b → List.Forall₂ R l l' →
      List.Forall₂ R (l.orderedInsert (fun a b => key a ≤ key b) a) (l'.orderedInsert (fun a b => key a ≤ key b) b) := by
    intro a b l l' hab h
    induction h with
    | nil => exact .cons hab .nil
    | @cons c d l l' hcd htail ih =>
      rw [List.orderedInsert_cons, List.orderedInsert_cons, hkey a b hab, hkey c d hcd]
      split
      · exact .cons hab (.cons hcd htail)
      · exact .cons hcd ih
  induction h with
  | nil => exact .nil
  | cons hab _ ih => exact hinsert hab ih

theorem raised_voters (h : List.Forall₂ (Raised horizon) vs vs') : List.Forall₂ (Raised horizon) (voters vs) (voters vs') :=
  forall₂_insertionSort (fun _ _ hr => congrArg AgentName.enumValue hr.agent)
    (forall₂_filter (fun _ _ hr => hr.counts) h)

theorem raised_agents (h : List.Forall₂ (Raised horizon) vs vs') : vs.map (·.agent) = vs'.map (·.agent) :=
  Forall₂.map_eq h fun _ _ hr => hr.agent

theorem raised_oneEntity (hraised : List.Forall₂ (Raised horizon) vs vs') (h : OneEntity vs) : OneEntity vs' := by
  refine ⟨raised_agents hraised ▸ h.agents, fun v hv w hw => ?_⟩
  obtain ⟨a, ha, har⟩ := Forall₂.exists_of_mem_right hraised hv
  obtain ⟨b, hb, hbr⟩ := Forall₂.exists_of_mem_right hraised hw
  rw [← har.entityToken, ← hbr.entityToken]
  exact h.entity a ha b hb

theorem raised_voter (hraised : List.Forall₂ (Raised horizon) vs vs') (h : ∃ v ∈ vs, counts v = true) :
    ∃ v ∈ vs', counts v = true := by
  obtain ⟨v, hv, hcounts⟩ := h
  obtain ⟨w, hw, hr⟩ := Forall₂.exists_of_mem_left hraised hv
  exact ⟨w, hw, hr.counts ▸ hcounts⟩

/-! ### The laws -/

/-- A pool is a mean of the voters' logits. -/
structure MeanOf (fns : PoolFns K) (config : CommitteeConfig K) (vs : List (AgentVerdict K)) (pool : HorizonPool K) :
    Prop where
  agents : pool.weights.map (·.agent) = (voters vs).map (·.agent)
  least : ∀ w ∈ pool.weights, 0 ≤ w.weight.val ∧ config.weightFloor.val ≤ w.weight.val
  total : (pool.weights.map (·.weight.val)).sum = 1
  between : ∀ lo hi, (∀ v ∈ voters vs, lo ≤ logit fns (probability v pool.horizon) config.logitClip ∧
    logit fns (probability v pool.horizon) config.logitClip ≤ hi) → lo ≤ pool.logit ∧ pool.logit ≤ hi

/-- A voter's probability has risen within the clip range. -/
def RisenInside (config : CommitteeConfig K) (horizon : Horizon) (vs vs' : List (AgentVerdict K)) : Prop :=
  ∃ v ∈ voters vs, ∃ v' ∈ voters vs', v.agent = v'.agent ∧ config.logitClip.1 ≤ probability v horizon ∧
    probability v horizon < probability v' horizon ∧ probability v' horizon ≤ config.logitClip.2

section Laws
variable [IsStrictOrderedRing K] {pool pool' : HorizonPool K}

theorem meanOf_poolAt (hfns : Monotonic fns) (hagents : Electorate ((voters vs).map (·.agent)))
    (hresolved : Resolved history) (hrate : (baseRates horizon).isSome)
    (h : poolAt fns (voters vs) baseRates config history horizon = .ok pool) : MeanOf fns config vs pool := by
  obtain ⟨w, hw, hfst, hfloored⟩ := weightsAt_eq_ok fns config hagents hresolved hrate
  obtain ⟨w', pool', hw', hpool', hhorizon, hweights, hlogit⟩ := poolAt_eq_ok config hfns hagents hresolved hrate
  obtain rfl := Except.ok.inj (hw.symm.trans hw')
  obtain rfl := Except.ok.inj (h.symm.trans hpool')
  refine ⟨?_, fun x hx => ?_, ?_, fun lo hi hbounds => ?_⟩
  · rw [← hfst, ← hweights, List.map_map]
    rfl
  · have hmem : (x.agent, x.weight.val) ∈ w := hweights ▸ List.mem_map_of_mem hx
    exact ⟨x.weight.property, hfloored.least _ hmem⟩
  · rw [← hfloored.total, ← hweights, List.map_map]
    rfl
  · rw [hlogit]
    refine mean_between config.weightFloor.property hfloored fun x hx => ?_
    obtain ⟨v, hv, hagent⟩ := List.mem_map.mp (hfst ▸ List.mem_map_of_mem hx : x.1 ∈ (voters vs).map (·.agent))
    rw [← hagent, lookup_logits hagents.nodup hv, ← hhorizon]
    exact hbounds v hv

/-- A pooled logit follows the voters' probabilities. -/
theorem poolAt_raised (hfns : Monotonic fns) (hagents : Electorate ((voters vs).map (·.agent)))
    (hresolved : Resolved history) (hrate : (baseRates horizon).isSome) (hraised : List.Forall₂ (Raised horizon) vs vs')
    (h : poolAt fns (voters vs) baseRates config history horizon = .ok pool)
    (h' : poolAt fns (voters vs') baseRates config history horizon = .ok pool') :
    pool.logit ≤ pool'.logit ∧
      (0 < config.weightFloor.val → RisenInside config horizon vs vs' → pool.logit < pool'.logit) := by
  have hvoters := raised_voters hraised
  have hsame := raised_agents hvoters
  have hagents' : Electorate ((voters vs').map (·.agent)) := hsame ▸ hagents
  obtain ⟨w, hw, hfst, hfloored⟩ := weightsAt_eq_ok fns config hagents hresolved hrate
  obtain ⟨w₁, pool₁, hw₁, hpool₁, -, -, hlogit₁⟩ := poolAt_eq_ok config hfns hagents hresolved hrate
  obtain ⟨w₂, pool₂, hw₂, hpool₂, -, -, hlogit₂⟩ := poolAt_eq_ok config hfns hagents' hresolved hrate
  rw [← hsame] at hw₂
  obtain rfl := Except.ok.inj (hw.symm.trans hw₁)
  obtain rfl := Except.ok.inj (hw.symm.trans hw₂)
  obtain rfl := Except.ok.inj (h.symm.trans hpool₁)
  obtain rfl := Except.ok.inj (h'.symm.trans hpool₂)
  have hz : ∀ x ∈ w, ((logits fns config horizon (voters vs)).lookup x.1).getD 0 ≤
      ((logits fns config horizon (voters vs')).lookup x.1).getD 0 := by
    intro x hx
    obtain ⟨v, hv, hagent⟩ := List.mem_map.mp (hfst ▸ List.mem_map_of_mem hx : x.1 ∈ (voters vs).map (·.agent))
    obtain ⟨v', hv', hr⟩ := Forall₂.exists_of_mem_left hvoters hv
    rw [← hagent, lookup_logits hagents.nodup hv, hr.agent, lookup_logits hagents'.nodup hv']
    exact logit_mono hfns config.clip_range hr.probability
  rw [hlogit₁, hlogit₂]
  refine ⟨mean_mono config.weightFloor.property hfloored hz, fun hfloor hrisen => ?_⟩
  obtain ⟨v, hv, v', hv', hagent, hlow, hlt, hhigh⟩ := hrisen
  obtain ⟨x, hx, hxv⟩ := List.mem_map.mp (hfst ▸ List.mem_map_of_mem hv : v.agent ∈ w.map Prod.fst)
  refine mean_strictMono hfloor hfloored hz ⟨x, hx, ?_⟩
  rw [hxv, lookup_logits hagents.nodup hv, hagent, lookup_logits hagents'.nodup hv']
  refine logit_strictMono hfns config.clip_range ?_
  rwa [max_eq_left hlow, max_eq_left (hlow.trans hlt.le), min_eq_left (hlt.le.trans hhigh), min_eq_left hhigh]

omit [IsStrictOrderedRing K] in
/-- A pool depends on the verdicts that vote, in any order. -/
theorem poolAgentVerdicts_congr (h : OneEntity vs) (h' : OneEntity vs') (hperm : (vs.filter counts).Perm (vs'.filter counts)) :
    poolAgentVerdicts fns vs baseRates config history = poolAgentVerdicts fns vs' baseRates config history := by
  have hvoters : voters vs = voters vs' := by
    refine Grouping.insertionSort_eq_of_perm (fun v : AgentVerdict K => v.agent.enumValue) hperm ?_
    intro v hv w hw hagent
    exact List.inj_on_of_nodup_map h.agents (List.mem_of_mem_filter hv) (List.mem_of_mem_filter hw)
      (Pipeline.enumValue_injective hagent)
  have hone : ∀ {us : List (AgentVerdict K)}, OneEntity us → ¬∃ v ∈ us, ∃ v' ∈ us, v.entityToken ≠ v'.entityToken := by
    rintro us hus ⟨v, hv, v', hv', hne⟩
    exact hne (hus.entity v hv v' hv')
  rw [poolAgentVerdicts, poolAgentVerdicts, if_neg (not_not.mpr h.agents), if_neg (not_not.mpr h'.agents),
    if_neg (hone h), if_neg (hone h'), hvoters]

variable (baseRates config history) in
/-- Pooling is a well-behaved mean: at every horizon the weights are floored and sum to 1 and the logit lies among the
    voters'; it follows the voters' probabilities; and the verdicts that do not vote, and their order, change nothing. -/
theorem poolAgentVerdicts_mean (hfns : Monotonic fns) (h : OneEntity vs) (hvoter : ∃ v ∈ vs, counts v = true)
    (hresolved : Resolved history) (hrates : ∀ horizon, (baseRates horizon).isSome) :
    ∃ forecast, poolAgentVerdicts fns vs baseRates config history = .ok forecast ∧
      (∀ horizon, ∃ pool, forecast.pool horizon = some pool ∧ MeanOf fns config vs pool) ∧
      (∀ horizon vs', List.Forall₂ (Raised horizon) vs vs' →
        ∃ forecast', poolAgentVerdicts fns vs' baseRates config history = .ok forecast' ∧
          ∃ pool pool', forecast.pool horizon = some pool ∧ forecast'.pool horizon = some pool' ∧ pool.logit ≤ pool'.logit ∧
            (0 < config.weightFloor.val → RisenInside config horizon vs vs' → pool.logit < pool'.logit)) ∧
      ∀ vs', OneEntity vs' → (vs.filter counts).Perm (vs'.filter counts) →
        poolAgentVerdicts fns vs' baseRates config history = .ok forecast := by
  have hagents := h.electorate hvoter
  obtain ⟨forecast, hforecast, hpools⟩ := poolAgentVerdicts_eq_ok config hfns h hvoter hresolved hrates
  refine ⟨forecast, hforecast, fun horizon => ?_, fun horizon vs' hraised => ?_, fun vs' h' hperm => ?_⟩
  · obtain ⟨pool, hfind, hpool⟩ := hpools horizon
    exact ⟨pool, hfind, meanOf_poolAt hfns hagents hresolved (hrates horizon) hpool⟩
  · obtain ⟨forecast', hforecast', hpools'⟩ := poolAgentVerdicts_eq_ok config hfns (raised_oneEntity hraised h)
      (raised_voter hraised hvoter) hresolved hrates
    obtain ⟨pool, hfind, hpool⟩ := hpools horizon
    obtain ⟨pool', hfind', hpool'⟩ := hpools' horizon
    exact ⟨forecast', hforecast', pool, pool', hfind, hfind',
      poolAt_raised hfns hagents hresolved (hrates horizon) hraised hpool hpool'⟩
  · rw [← poolAgentVerdicts_congr h h' hperm, hforecast]

end Laws

end Horizons

/-! ### Even odds -/

section Even
open Pipeline (evenVote oneConfig)

/-- Functions with the values that even odds need: `log 1`, `exp 0` and `sqrt 0`. -/
def steadyFns : PoolFns ℚ := ⟨⟨id, fun x => max 0 (1 + x)⟩, fun x => x - 1⟩

theorem steadyFns_monotonic : Monotonic steadyFns where
  log x y _ h := sub_lt_sub_right h 1
  exp x y h := max_le_max_left 0 (add_le_add_right h 1)
  exp_zero := by norm_num [steadyFns]
  exp_nonneg x := le_max_left 0 _
  sqrt_nonneg x h := h

/-- Two agents that see even odds. -/
def evenVotes : List (AgentVerdict ℚ) := [evenVote .value Samples.value_votes, evenVote .technical Samples.technical_votes]

/-- The pool of even odds is a mean, in either order of the two. -/
theorem poolAgentVerdicts_mean_even : ∃ forecast,
    poolAgentVerdicts steadyFns evenVotes (fun _ => some (1 / 2)) oneConfig.committee none = .ok forecast ∧
      (∀ horizon, ∃ pool, forecast.pool horizon = some pool ∧ MeanOf steadyFns oneConfig.committee evenVotes pool) ∧
      poolAgentVerdicts steadyFns evenVotes.reverse (fun _ => some (1 / 2)) oneConfig.committee none = .ok forecast := by
  have hone : OneEntity evenVotes := ⟨by decide, by decide⟩
  have hone' : OneEntity evenVotes.reverse := ⟨by decide, by decide⟩
  have hnone : Resolved (none : Option (History ℚ)) := fun _ h => by cases h
  obtain ⟨forecast, hforecast, hmean, -, hsame⟩ := poolAgentVerdicts_mean (fun _ => some (1 / 2)) oneConfig.committee none
    steadyFns_monotonic hone ⟨_, List.mem_cons_self, rfl⟩ hnone fun _ => rfl
  exact ⟨forecast, hforecast, hmean, hsame _ hone' ((List.reverse_perm evenVotes).symm.filter _)⟩

end Even
end Pooling
end AsymmetricCommittee
