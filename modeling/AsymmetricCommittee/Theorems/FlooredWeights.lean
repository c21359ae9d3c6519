import AsymmetricCommittee.Theorems.PoolingLaws
import Mathlib.Tactic.FieldSimp
import Mathlib.Tactic.LinearCombination

/-! The loop of the weight floor. Every pass scales the free agents down, never up, so what is pinned stays under the floor
    and there is always something left to share: the loop ends on weights in the order of the raw ones. -/

namespace AsymmetricCommittee
namespace Pooling

variable {K : Type} [Field K] [LinearOrder K] {raw : List (AgentName × K)} {floor : K} {pinned : List AgentName} {k : Nat}

/-- The agents that are pinned when the loop has been passed `k` times. -/
inductive Passes (raw : List (AgentName × K)) (floor : K) : Nat → List AgentName → Prop
  | start : Passes raw floor 0 ((raw.filter fun x => x.2 < floor).map Prod.fst)
  | next {k : Nat} {pinned : List AgentName} (h : Passes raw floor k pinned) (hnew : newlyPinned raw floor pinned ≠ []) :
      Passes raw floor (k + 1) (pinned ++ newlyPinned raw floor pinned)

/-- What the free agents have together. -/
abbrev freeSum (raw : List (AgentName × K)) (pinned : List AgentName) : K := ((freeAgents raw pinned).map Prod.snd).sum

/-- What the pinned leave to share. -/
abbrev remaining (floor : K) (pinned : List AgentName) : K := 1 - floor * pinned.length

/-- The weights fit the loop: different agents, weights of at least zero that make 1, and a floor not too high for all. -/
structure Floorable (raw : List (AgentName × K)) (floor : K) : Prop where
  agents : (raw.map Prod.fst).Nodup
  nonneg : ∀ x ∈ raw, 0 ≤ x.2
  total : (raw.map Prod.snd).sum = 1
  floor_le : floor * raw.length ≤ 1

/-- What every pass keeps: there is something to share, and what is pinned is under the floor at the scale of the pass. -/
structure Shares (raw : List (AgentName × K)) (floor : K) (pinned : List AgentName) : Prop where
  agents : Pinned raw pinned
  free : 0 < freeSum raw pinned
  left : 0 ≤ remaining floor pinned
  low : ∀ x ∈ raw, x.1 ∈ pinned → rescaled raw floor pinned x.2 < floor

/-- The entries that are newly pinned. -/
abbrev newlyLow (raw : List (AgentName × K)) (floor : K) (pinned : List AgentName) : List (AgentName × K) :=
  (freeAgents raw pinned).filter fun x => rescaled raw floor pinned x.2 < floor

omit [LinearOrder K] in
theorem rescaled_eq (raw : List (AgentName × K)) (floor : K) (pinned : List AgentName) (w : K) :
    rescaled raw floor pinned w = w * (remaining floor pinned / freeSum raw pinned) := mul_div_assoc _ _ _

omit [Field K] [LinearOrder K] in
theorem mem_freeAgents {x : AgentName × K} : x ∈ freeAgents raw pinned ↔ x ∈ raw ∧ x.1 ∉ pinned := by
  simp [freeAgents]

theorem newlyPinned_eq (hraw : (raw.map Prod.fst).Nodup) : newlyPinned raw floor pinned = (newlyLow raw floor pinned).map Prod.fst :=
  (hraw.sublist ((List.filter_sublist.trans List.filter_sublist).map _)).dedup

theorem length_newlyPinned (hraw : (raw.map Prod.fst).Nodup) :
    (newlyPinned raw floor pinned).length = (newlyLow raw floor pinned).length := by
  rw [newlyPinned_eq hraw, List.length_map]

/-- The free agents after a pass are those not newly pinned. -/
theorem freeAgents_next (hraw : (raw.map Prod.fst).Nodup) :
    freeAgents raw (pinned ++ newlyPinned raw floor pinned) =
      (freeAgents raw pinned).filter fun x => !decide (rescaled raw floor pinned x.2 < floor) := by
  rw [freeAgents, freeAgents, List.filter_filter]
  refine List.filter_congr fun x hx => ?_
  have hnew : x.1 ∈ newlyPinned raw floor pinned ↔ x.1 ∉ pinned ∧ rescaled raw floor pinned x.2 < floor := by
    rw [newlyPinned_eq hraw]
    constructor
    · intro h
      obtain ⟨y, hy, hxy⟩ := List.mem_map.mp h
      obtain ⟨hfree, hlow⟩ := List.mem_filter.mp hy
      have hsame : y = x := List.inj_on_of_nodup_map hraw (mem_freeAgents.mp hfree).1 hx hxy
      rw [← hsame]
      exact ⟨(mem_freeAgents.mp hfree).2, of_decide_eq_true hlow⟩
    · rintro ⟨hfree, hlow⟩
      exact List.mem_map_of_mem (List.mem_filter.mpr ⟨mem_freeAgents.mpr ⟨hx, hfree⟩, decide_eq_true hlow⟩)
  by_cases hp : x.1 ∈ pinned
  · simp [hp]
  · simp only [List.mem_append, hp, hnew, false_or, not_false_eq_true, true_and, decide_true, Bool.and_true, decide_not]

omit [LinearOrder K] in
/-- A sum over a list is the sum over the members that pass and that over those that do not. -/
theorem sum_filter_add (l : List (AgentName × K)) (p : AgentName × K → Bool) :
    ((l.filter p).map Prod.snd).sum + ((l.filter fun x => !p x).map Prod.snd).sum = (l.map Prod.snd).sum := by
  have h := sum_map_ite l p Prod.snd Prod.snd
  simp only [ite_self] at h
  exact h.symm

theorem freeSum_next (hraw : (raw.map Prod.fst).Nodup) :
    freeSum raw (pinned ++ newlyPinned raw floor pinned) =
      freeSum raw pinned - ((newlyLow raw floor pinned).map Prod.snd).sum := by
  rw [freeSum, freeAgents_next hraw, eq_sub_iff_add_eq, add_comm]
  exact sum_filter_add _ fun x => decide (rescaled raw floor pinned x.2 < floor)

omit [LinearOrder K] in
theorem freeSum_eq (htotal : (raw.map Prod.snd).sum = 1) :
    freeSum raw pinned = 1 - ((raw.filter fun x => x.1 ∈ pinned).map Prod.snd).sum := by
  have h := sum_filter_add raw fun x => decide (x.1 ∈ pinned)
  rw [htotal] at h
  rw [eq_sub_iff_add_eq, ← h, add_comm]
  simp [freeSum, freeAgents]

variable [IsStrictOrderedRing K]

/-- The members of a list are under a bound, so the sum is under as many times the bound. -/
theorem sum_lt_of_forall_lt {l : List (AgentName × K)} {f : AgentName × K → K} (hne : l ≠ []) (h : ∀ x ∈ l, f x < floor) :
    (l.map f).sum < floor * l.length := by
  induction l with
  | nil => exact absurd rfl hne
  | cons x l ih =>
    rcases List.forall_mem_cons.mp h with ⟨hx, hl⟩
    rw [List.map_cons, List.sum_cons, List.length_cons]
    push_cast
    rcases eq_or_ne l [] with rfl | hl0
    · simpa using hx
    · linarith [ih hl0 hl]

omit [Field K] [LinearOrder K] [IsStrictOrderedRing K] in
theorem length_pinned_le (hp : Pinned raw pinned) : pinned.length ≤ raw.length := by
  have hlen : (raw.map Prod.fst).length = raw.length := List.length_map _
  rw [← hlen]
  exact (List.subperm_of_subset hp.nodup hp.agents).length_le

/-- However many agents are pinned at a positive floor, nothing is shared out twice. -/
theorem Floorable.remaining_nonneg (h : Floorable raw floor) (hfloor : 0 < floor) (hp : Pinned raw pinned) :
    0 ≤ remaining floor pinned := by
  have hle : floor * pinned.length ≤ floor * raw.length :=
    mul_le_mul_of_nonneg_left (Nat.cast_le.mpr (length_pinned_le hp)) hfloor.le
  rw [remaining, sub_nonneg]
  exact hle.trans h.floor_le

/-- The first agents are pinned at their own weights. -/
theorem Floorable.start (h : Floorable raw floor) :
    Shares raw floor ((raw.filter fun x => x.2 < floor).map Prod.fst) := by
  have hpinned := Pinned.start h.agents floor
  have hmem : ∀ x ∈ raw, x.1 ∈ (raw.filter fun x => x.2 < floor).map Prod.fst → x.2 < floor := by
    intro x hx hin
    obtain ⟨y, hy, hxy⟩ := List.mem_map.mp hin
    obtain ⟨hyraw, hlow⟩ := List.mem_filter.mp hy
    rw [← List.inj_on_of_nodup_map h.agents hyraw hx hxy]
    exact of_decide_eq_true hlow
  generalize (raw.filter fun x => x.2 < floor).map Prod.fst = pinned at hpinned hmem
  have hlength := hpinned.length_filter h.agents
  have hlow : ∀ x ∈ raw.filter (fun x => x.1 ∈ pinned), x.2 < floor := by
    intro x hx
    obtain ⟨hraw, hin⟩ := List.mem_filter.mp hx
    exact hmem x hraw (of_decide_eq_true hin)
  rcases eq_or_ne (raw.filter fun x => x.1 ∈ pinned) [] with hnil | hne
  · -- no agent is under the floor
    have hpin : pinned = [] := by
      rw [hnil] at hlength
      exact List.length_eq_zero_iff.mp hlength.symm
    have hfree : freeSum raw pinned = 1 := by
      rw [freeSum_eq h.total, hnil]
      simp
    refine ⟨hpinned, hfree ▸ one_pos, ?_, ?_⟩
    · rw [hpin]
      simp
    · rw [hpin]
      intro x _ hx
      cases hx
  · obtain ⟨x, hx⟩ := List.exists_mem_of_ne_nil _ hne
    have hfloor : 0 < floor := (h.nonneg x (List.mem_filter.mp hx).1).trans_lt (hlow x hx)
    have hsum := sum_lt_of_forall_lt (f := Prod.snd) hne hlow
    rw [hlength] at hsum
    have hleft := h.remaining_nonneg hfloor hpinned
    have hle : remaining floor pinned < freeSum raw pinned := by
      rw [freeSum_eq h.total, remaining]
      linarith
    have hfree : 0 < freeSum raw pinned := hleft.trans_lt hle
    refine ⟨hpinned, hfree, hleft, fun y hy hin => ?_⟩
    have hscale : remaining floor pinned / freeSum raw pinned ≤ 1 := (div_le_one hfree).mpr hle.le
    rw [rescaled_eq]
    exact (mul_le_of_le_one_right (h.nonneg y hy) hscale).trans_lt (hmem y hy hin)

/-- A pass that pins more agents leaves a smaller scale. -/
theorem Floorable.next (h : Floorable raw floor) (hs : Shares raw floor pinned) (hnew : newlyPinned raw floor pinned ≠ []) :
    Shares raw floor (pinned ++ newlyPinned raw floor pinned) := by
  have hpinned : Pinned raw (pinned ++ newlyPinned raw floor pinned) := hs.agents.next
  have hlowne : newlyLow raw floor pinned ≠ [] := by
    intro hnil
    rw [newlyPinned_eq h.agents, hnil] at hnew
    exact hnew rfl
  have hlow : ∀ x ∈ newlyLow raw floor pinned, rescaled raw floor pinned x.2 < floor := by
    intro x hx
    exact of_decide_eq_true (List.mem_filter.mp hx).2
  have hraw : ∀ x ∈ newlyLow raw floor pinned, x ∈ raw := by
    intro x hx
    exact (mem_freeAgents.mp (List.mem_of_mem_filter hx)).1
  have hfree := hs.free
  have hleft := hs.left
  have hscale : 0 ≤ remaining floor pinned / freeSum raw pinned := div_nonneg hleft hfree.le
  have hfloor : 0 < floor := by
    obtain ⟨x, hx⟩ := List.exists_mem_of_ne_nil _ hlowne
    have hx' := hlow x hx
    rw [rescaled_eq] at hx'
    exact (mul_nonneg (h.nonneg x (hraw x hx)) hscale).trans_lt hx'
  have hleft' := h.remaining_nonneg hfloor hpinned
  -- what is pinned now is worth less at the scale of the pass than at the floor
  have hcost : ((newlyLow raw floor pinned).map Prod.snd).sum * (remaining floor pinned / freeSum raw pinned) <
      floor * (newlyPinned raw floor pinned).length := by
    have hsum := sum_lt_of_forall_lt (f := fun x => x.2 * (remaining floor pinned / freeSum raw pinned)) hlowne
      fun x hx => (rescaled_eq raw floor pinned x.2).symm.trans_lt (hlow x hx)
    rwa [List.sum_map_mul_right, ← length_newlyPinned h.agents] at hsum
  have hrest : remaining floor (pinned ++ newlyPinned raw floor pinned) =
      remaining floor pinned - floor * (newlyPinned raw floor pinned).length := by
    rw [remaining, remaining, List.length_append]
    push_cast
    ring
  have hnonneg : 0 ≤ freeSum raw (pinned ++ newlyPinned raw floor pinned) := by
    refine List.sum_nonneg fun w hw => ?_
    obtain ⟨x, hx, rfl⟩ := List.mem_map.mp hw
    exact h.nonneg x (mem_freeAgents.mp hx).1
  have hkeep : remaining floor pinned / freeSum raw pinned * freeSum raw pinned = remaining floor pinned :=
    div_mul_cancel₀ _ hfree.ne'
  have hsplit : freeSum raw (pinned ++ newlyPinned raw floor pinned) =
      freeSum raw pinned - ((newlyLow raw floor pinned).map Prod.snd).sum := freeSum_next h.agents
  have hfree' : 0 < freeSum raw (pinned ++ newlyPinned raw floor pinned) := by
    refine lt_of_le_of_ne hnonneg fun hzero => ?_
    rw [← hzero, eq_comm, sub_eq_zero] at hsplit
    rw [← hsplit, mul_comm, hkeep] at hcost
    rw [hrest] at hleft'
    linarith
  have hsmaller : remaining floor (pinned ++ newlyPinned raw floor pinned) /
      freeSum raw (pinned ++ newlyPinned raw floor pinned) ≤ remaining floor pinned / freeSum raw pinned := by
    rw [div_le_iff₀ hfree', hsplit, mul_sub, hkeep, hrest]
    linarith
  refine ⟨hpinned, hfree', hleft', fun x hx hin => ?_⟩
  have hunder : rescaled raw floor pinned x.2 < floor := by
    rcases List.mem_append.mp hin with hin | hin
    · exact hs.low x hx hin
    · rw [newlyPinned_eq h.agents] at hin
      obtain ⟨y, hy, hxy⟩ := List.mem_map.mp hin
      rw [← List.inj_on_of_nodup_map h.agents (hraw y hy) hx hxy]
      exact hlow y hy
  rw [rescaled_eq] at hunder ⊢
  exact (mul_le_mul_of_nonneg_left hsmaller (h.nonneg x hx)).trans_lt hunder

theorem Passes.shares (hp : Passes raw floor k pinned) (h : Floorable raw floor) : Shares raw floor pinned := by
  induction hp with
  | start => exact h.start
  | next _ hnew ih => exact h.next ih hnew

omit [IsStrictOrderedRing K] in
/-- Every pass pins an agent. -/
theorem Passes.le_length (hp : Passes raw floor k pinned) : k ≤ pinned.length := by
  induction hp with
  | start => exact Nat.zero_le _
  | next _ hnew ih =>
    have := List.length_pos_iff.mpr hnew
    rw [List.length_append]
    omega

omit [IsStrictOrderedRing K] in
/-- Something is free, so that not all agents are pinned. -/
theorem Shares.length_lt (hs : Shares raw floor pinned) (hraw : (raw.map Prod.fst).Nodup) : pinned.length < raw.length := by
  rw [← hs.agents.length_filter hraw]
  refine lt_of_le_of_ne (List.length_filter_le _ _) fun hall => ?_
  have hnone : freeAgents raw pinned = [] := by
    refine List.eq_nil_iff_forall_not_mem.mpr fun x hx => ?_
    obtain ⟨hin, hfree⟩ := mem_freeAgents.mp hx
    exact hfree (of_decide_eq_true (List.length_filter_eq_length_iff.mp hall x hin))
  have hfree := hs.free
  rw [freeSum, hnone] at hfree
  exact lt_irrefl _ hfree

/-- The loop returns from a pass that pins no one, past the fallback. -/
theorem Passes.applyFloorFrom (hp : Passes raw floor k pinned) (h : Floorable raw floor) :
    ∃ k' pinned', Passes raw floor k' pinned' ∧ newlyPinned raw floor pinned' = [] ∧
      applyFloorFrom raw floor pinned =
        raw.map fun x => (x.1, if x.1 ∈ pinned' then floor else rescaled raw floor pinned' x.2) := by
  induction pinned using applyFloorFrom.induct raw floor generalizing k with
  | case1 pinned hnone =>
    have hfree := (hp.shares h).free
    rcases hnone with hnone | hnone
    · rw [freeSum, hnone] at hfree
      exact absurd hfree (lt_irrefl _)
    · exact absurd hfree (not_lt.mpr hnone)
  | case2 pinned hsome hnew =>
    refine ⟨k, pinned, hp, hnew, ?_⟩
    rw [Pooling.applyFloorFrom, if_neg hsome, dif_pos hnew]
  | case3 pinned hsome hnew ih =>
    obtain ⟨k', pinned', hp', hnew', heq⟩ := ih (hp.next hnew)
    refine ⟨k', pinned', hp', hnew', ?_⟩
    rw [Pooling.applyFloorFrom, if_neg hsome, dif_neg hnew, heq]

/-- On the last pass a heavier raw weight is no lighter in the end. -/
theorem Shares.mono (hs : Shares raw floor pinned) (hnew : newlyPinned raw floor pinned = []) {x y : AgentName × K}
    (hx : x ∈ raw) (hy : y ∈ raw) (hle : x.2 ≤ y.2) :
    (if x.1 ∈ pinned then floor else rescaled raw floor pinned x.2) ≤
      if y.1 ∈ pinned then floor else rescaled raw floor pinned y.2 := by
  have hscale : 0 ≤ remaining floor pinned / freeSum raw pinned := div_nonneg hs.left hs.free.le
  have hmono : rescaled raw floor pinned x.2 ≤ rescaled raw floor pinned y.2 := by
    rw [rescaled_eq, rescaled_eq]
    exact mul_le_mul_of_nonneg_right hle hscale
  have hleast : ∀ z ∈ raw, z.1 ∉ pinned → floor ≤ rescaled raw floor pinned z.2 := by
    intro z hz hfree
    refine not_lt.mp fun hlow => ?_
    have hin : z.1 ∈ newlyPinned raw floor pinned :=
      List.mem_dedup.mpr (List.mem_map_of_mem (List.mem_filter.mpr ⟨mem_freeAgents.mpr ⟨hz, hfree⟩, decide_eq_true hlow⟩))
    rw [hnew] at hin
    cases hin
  by_cases hxp : x.1 ∈ pinned
  · by_cases hyp : y.1 ∈ pinned
    · rw [if_pos hxp, if_pos hyp]
    · rw [if_pos hxp, if_neg hyp]
      exact hleast y hy hyp
  · by_cases hyp : y.1 ∈ pinned
    · exact absurd (hmono.trans_lt (hs.low y hy hyp)) (not_lt.mpr (hleast x hx hxp))
    · rw [if_neg hxp, if_neg hyp]
      exact hmono

/-- Weights that meet the floor stay as they are. -/
theorem Floorable.applyFloor_self (h : Floorable raw floor) (hmeets : ∀ x ∈ raw, floor ≤ x.2) :
    applyFloor raw floor = raw := by
  have hnone : (raw.filter fun x => x.2 < floor) = [] := by
    refine List.filter_eq_nil_iff.mpr fun x hx => ?_
    simpa using hmeets x hx
  have hfree : freeAgents raw [] = raw := by simp [freeAgents]
  have hself : ∀ w, rescaled raw floor [] w = w := by
    intro w
    rw [rescaled, hfree, h.total]
    simp
  have hnew : newlyPinned raw floor [] = [] := by
    rw [newlyPinned_eq h.agents, newlyLow, hfree]
    simp only [hself, hnone, List.map_nil]
  have hgo : ¬(freeAgents raw [] = [] ∨ ((freeAgents raw []).map Prod.snd).sum ≤ 0) := by
    rw [hfree, h.total]
    refine not_or.mpr ⟨?_, not_le.mpr one_pos⟩
    rintro rfl
    exact zero_ne_one h.total
  rw [applyFloor, hnone, List.map_nil, Pooling.applyFloorFrom, if_neg hgo, dif_pos hnew]
  simp [hself]

/-- Non-negative raw weights that make 1, and a floor not too high for so many agents: no pass meets the fallback, there are
    fewer passes than agents, and the floored weights make 1, are at the floor or above, come in the order of the raw ones
    and are the raw ones if these meet the floor. -/
theorem applyFloor_ends_ordered (raw : List (AgentName × K)) (floor : K) (hagents : (raw.map Prod.fst).Nodup)
    (hnonneg : ∀ x ∈ raw, 0 ≤ x.2) (htotal : (raw.map Prod.snd).sum = 1) (hfloor : floor * raw.length ≤ 1) :
    (∀ k pinned, Passes raw floor k pinned → k < raw.length ∧
      ¬(freeAgents raw pinned = [] ∨ ((freeAgents raw pinned).map Prod.snd).sum ≤ 0)) ∧
    (∃ k pinned, Passes raw floor k pinned ∧ newlyPinned raw floor pinned = [] ∧ applyFloor raw floor =
      raw.map fun x => (x.1, if x.1 ∈ pinned then floor else rescaled raw floor pinned x.2)) ∧
    ((applyFloor raw floor).map Prod.snd).sum = 1 ∧ (∀ x ∈ applyFloor raw floor, floor ≤ x.2) ∧
    (∀ p ∈ raw.zip (applyFloor raw floor), ∀ q ∈ raw.zip (applyFloor raw floor), p.1.2 ≤ q.1.2 → p.2.2 ≤ q.2.2) ∧
    ((∀ x ∈ raw, floor ≤ x.2) → applyFloor raw floor = raw) := by
  have h : Floorable raw floor := ⟨hagents, hnonneg, htotal, hfloor⟩
  have hne : raw ≠ [] := by
    rintro rfl
    exact zero_ne_one htotal
  have hfloored := floored_applyFloor hne hagents hfloor
  obtain ⟨k, pinned, hp, hnew, hresult⟩ := Passes.start.applyFloorFrom h
  refine ⟨fun k pinned hp => ?_, ⟨k, pinned, hp, hnew, hresult⟩, hfloored.total, hfloored.least, ?_, h.applyFloor_self⟩
  · have hs := hp.shares h
    refine ⟨hp.le_length.trans_lt (hs.length_lt hagents), not_or.mpr ⟨fun hnone => ?_, not_le.mpr hs.free⟩⟩
    have hfree := hs.free
    rw [freeSum, hnone] at hfree
    exact lt_irrefl _ hfree
  · have hzip : ∀ p ∈ raw.zip (applyFloor raw floor), p.1 ∈ raw ∧
        p.2.2 = if p.1.1 ∈ pinned then floor else rescaled raw floor pinned p.1.2 := by
      intro p hin
      have hin' : p ∈ raw.zip (raw.map fun x => (x.1, if x.1 ∈ pinned then floor else rescaled raw floor pinned x.2)) := by
        rw [← hresult]
        exact hin
      rw [List.zip_map_right, List.mem_map] at hin'
      obtain ⟨⟨x, y⟩, hxy, rfl⟩ := hin'
      rw [List.zip_eq_zipWith, List.zipWith_self, List.mem_map] at hxy
      obtain ⟨z, hz, hzz⟩ := hxy
      cases hzz
      exact ⟨hz, rfl⟩
    intro p hp' q hq' hle
    obtain ⟨hpraw, hpw⟩ := hzip p hp'
    obtain ⟨hqraw, hqw⟩ := hzip q hq'
    rw [hpw, hqw]
    exact (hp.shares h).mono hnew hpraw hqraw hle

/-- Two passes: the second pins an agent that the first has scaled under the floor. -/
theorem applyFloor_ends_ordered_three :
    ((applyFloor [(AgentName.value, (7 / 10 : ℚ)), (.insider, 13 / 50), (.technical, 1 / 25)] (1 / 4)).map
      Prod.snd).sum = 1 :=
  (applyFloor_ends_ordered [(AgentName.value, (7 / 10 : ℚ)), (.insider, 13 / 50), (.technical, 1 / 25)] (1 / 4)
    (by decide) (by norm_num) (by norm_num) (by norm_num)).2.2.1

end Pooling
end AsymmetricCommittee
