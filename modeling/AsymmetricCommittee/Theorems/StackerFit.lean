import AsymmetricCommittee.Committee.Stacker
import AsymmetricCommittee.Theorems.SizingLimits
import Mathlib.Analysis.SpecialFunctions.Log.Basic

/-! The stacker's damped Newton solve. Both directions descend, since the Hessian's diagonal is not negative and the Newton
    direction is taken at a positive determinant only, so a step that the line search accepts does not raise the objective;
    the step is halved at most forty times. -/

namespace AsymmetricCommittee
namespace Stacker

/-! ### The line search -/

section Search
variable {K : Type} [Field K] [LinearOrder K] {objectiveAt : K → K} {f slope step step' f' : K} {fuel fuel' : Nat}

/-- What is accepted lies under the line of sufficient decrease. -/
theorem lineSearch_accepted [IsStrictOrderedRing K] (h : lineSearch objectiveAt f slope fuel step = .accepted step' f') :
    0 < step' ∧ f' = objectiveAt step' ∧ f' ≤ f + 1e-4 * step' * slope := by
  induction fuel generalizing step with
  | zero =>
    rw [lineSearch] at h
    split at h
    · cases h
    · cases h
  | succ fuel ih =>
    rw [lineSearch] at h
    split at h
    · next hstep =>
      split at h
      · next hle =>
        cases h
        have hpos : (0 : K) < 1e-12 := by norm_num
        exact ⟨hpos.trans hstep, rfl, hle⟩
      · exact ih h
    · cases h

/-- Every halving uses up a unit of fuel. -/
theorem lineSearch_ne_outOfFuel [IsStrictOrderedRing K] (h : step ≤ 1e-12 * 2 ^ fuel) :
    lineSearch objectiveAt f slope fuel step ≠ .outOfFuel := by
  induction fuel generalizing step with
  | zero =>
    rw [pow_zero, mul_one] at h
    rw [lineSearch, if_neg (not_lt.mpr h)]
    nofun
  | succ fuel ih =>
    have hhalf : step * 0.5 ≤ 1e-12 * 2 ^ fuel := by
      have hpow : (1e-12 : K) * 2 ^ (fuel + 1) * 0.5 = 1e-12 * 2 ^ fuel := by
        rw [pow_succ]
        norm_num
        ring
      rw [← hpow]
      exact mul_le_mul_of_nonneg_right h (by norm_num)
    rw [lineSearch]
    split
    · split
      · nofun
      · exact ih hhalf
    · nofun

/-- More fuel does not change what a search comes to. -/
theorem lineSearch_fuel (h : lineSearch objectiveAt f slope fuel step ≠ .outOfFuel) (hle : fuel ≤ fuel') :
    lineSearch objectiveAt f slope fuel' step = lineSearch objectiveAt f slope fuel step := by
  induction fuel generalizing step fuel' with
  | zero =>
    rw [lineSearch] at h
    by_cases hstep : 1e-12 < step
    · rw [if_pos hstep] at h
      exact absurd rfl h
    · cases fuel' with
      | zero => rfl
      | succ fuel' => rw [lineSearch, lineSearch, if_neg hstep, if_neg hstep]
  | succ fuel ih =>
    obtain ⟨fuel', rfl⟩ := Nat.exists_eq_add_of_le' (Nat.le_of_add_left_le hle : 1 ≤ fuel')
    rw [lineSearch] at h
    rw [lineSearch, lineSearch]
    by_cases hstep : 1e-12 < step
    · rw [if_pos hstep] at h
      rw [if_pos hstep, if_pos hstep]
      by_cases haccept : objectiveAt step ≤ f + 1e-4 * step * slope
      · rw [if_pos haccept, if_pos haccept]
      · rw [if_neg haccept] at h
        rw [if_neg haccept, if_neg haccept]
        exact ih h (Nat.le_of_succ_le_succ hle)
    · rw [if_neg hstep, if_neg hstep]

end Search

/-! ### The directions descend -/

section Direction
variable {K : Type} [Field K] [LinearOrder K] [IsStrictOrderedRing K]

/-- The adjugate of a matrix with a diagonal of at least zero and a positive determinant is positive. -/
theorem adjugate_nonneg {haa hab hbb : K} (haa0 : 0 ≤ haa) (hdet : 0 < haa * hbb - hab * hab) (x y : K) :
    0 ≤ hbb * x * x - 2 * (hab * x * y) + haa * y * y := by
  have hpos : 0 < haa := by
    refine lt_of_le_of_ne haa0 fun h => ?_
    rw [← h, zero_mul, zero_sub] at hdet
    linarith [mul_self_nonneg hab]
  have hsquare : haa * (hbb * x * x - 2 * (hab * x * y) + haa * y * y) =
      (haa * hbb - hab * hab) * (x * x) + (haa * y - hab * x) * (haa * y - hab * x) := by ring
  have hnonneg : 0 ≤ haa * (hbb * x * x - 2 * (hab * x * y) + haa * y * y) := by
    rw [hsquare]
    exact add_nonneg (mul_nonneg hdet.le (mul_self_nonneg x)) (mul_self_nonneg _)
  exact nonneg_of_mul_nonneg_right hnonneg hpos

/-- Along either direction the objective's slope is not positive. -/
theorem slope_nonpos {d : Derivatives K} (h : 0 ≤ d.haa) : d.ga * (direction d).1 + d.gb * (direction d).2 ≤ 0 := by
  unfold direction
  dsimp only
  split
  · next hdet =>
    have hpos : 0 < d.haa * d.hbb - d.hab * d.hab := lt_trans (by norm_num) hdet
    have hnewton : d.ga * (-(d.hbb * d.ga - d.hab * d.gb) / (d.haa * d.hbb - d.hab * d.hab)) +
        d.gb * (-(d.haa * d.gb - d.hab * d.ga) / (d.haa * d.hbb - d.hab * d.hab)) =
        -(d.hbb * d.ga * d.ga - 2 * (d.hab * d.ga * d.gb) + d.haa * d.gb * d.gb) /
          (d.haa * d.hbb - d.hab * d.hab) := by ring
    rw [hnewton, neg_div]
    exact neg_nonpos.mpr (div_nonneg (adjugate_nonneg h hpos _ _) hpos.le)
  · have hsquares : d.ga * -d.ga + d.gb * -d.gb = -(d.ga * d.ga + d.gb * d.gb) := by ring
    rw [hsquares]
    exact neg_nonpos.mpr (add_nonneg (mul_self_nonneg _) (mul_self_nonneg _))

end Direction

/-! ### The solver over the reals -/

/-- The functions of `math` in exact arithmetic. -/
noncomputable def realFns : StackerFns ℝ :=
  ⟨Sizing.realFns, Real.log, fun x => Real.log (1 + x), fun x y => Real.sqrt (x ^ 2 + y ^ 2)⟩

section Solver
variable {obs : List (Observation ℝ)} {anchor gA gB : ℝ} {fuel left : Nat} {s s' : Iterate ℝ}

/-- An observation adds nothing negative to the Hessian's diagonal. -/
theorem haa_add_nonneg {a b : ℝ} {m : Nat} {d : Derivatives ℝ} {o : Observation ℝ} (hd : 0 ≤ d.haa) (ho : 0 ≤ o.weight) :
    0 ≤ (d.add realFns a b m o).haa := by
  have hp := Sizing.sigmoid_mem (a + b * o.logit)
  refine add_nonneg hd (div_nonneg (mul_nonneg (mul_nonneg ho hp.1) ?_) (Nat.cast_nonneg m))
  exact sub_nonneg.mpr hp.2

theorem haa_foldl_nonneg {a b : ℝ} {m : Nat} {d : Derivatives ℝ} (hd : 0 ≤ d.haa) (hobs : ∀ o ∈ obs, 0 ≤ o.weight) :
    0 ≤ (obs.foldl (Derivatives.add realFns a b m) d).haa := by
  induction obs generalizing d with
  | nil => exact hd
  | cons o obs ih =>
    rcases List.forall_mem_cons.mp hobs with ⟨ho, hobs⟩
    exact ih (haa_add_nonneg hd ho) hobs

theorem haa_nonneg (hobs : ∀ o ∈ obs, 0 ≤ o.weight) (hA : 0 ≤ gA) (a b anchor gB : ℝ) :
    0 ≤ (derivatives realFns a b obs anchor gA gB).haa := haa_foldl_nonneg hA hobs

/-- The objective that an iterate carries is the one at its point. -/
def Iterate.Exact (obs : List (Observation ℝ)) (anchor gA gB : ℝ) (s : Iterate ℝ) : Prop :=
  s.f = objective realFns s.a s.b obs anchor gA gB

/-- An accepted step carries the objective on and does not raise it. -/
theorem turn_next (hobs : ∀ o ∈ obs, 0 ≤ o.weight) (hA : 0 ≤ gA) (h : turn realFns obs anchor gA gB fuel s = .next s') :
    s'.Exact obs anchor gA gB ∧ s'.f ≤ s.f := by
  unfold turn at h
  dsimp only at h
  split at h
  · cases h
  · split at h
    · next step f hsearch =>
      cases h
      obtain ⟨hstep, hf, hle⟩ := lineSearch_accepted hsearch
      have hslope := slope_nonpos (haa_nonneg hobs hA s.a s.b anchor gB)
      have hdescent : 1e-4 * step * ((derivatives realFns s.a s.b obs anchor gA gB).ga *
          (direction (derivatives realFns s.a s.b obs anchor gA gB)).1 +
          (derivatives realFns s.a s.b obs anchor gA gB).gb *
          (direction (derivatives realFns s.a s.b obs anchor gA gB)).2) ≤ 0 :=
        mul_nonpos_of_nonneg_of_nonpos (mul_nonneg (by norm_num) hstep.le) hslope
      exact ⟨hf, hle.trans (add_le_of_nonpos_right hdescent)⟩
    · cases h
    · cases h

/-- Forty units of fuel are enough for every line search. -/
theorem turn_fuel (hfuel : 40 ≤ fuel) :
    turn realFns obs anchor gA gB fuel s = turn realFns obs anchor gA gB 40 s ∧
      turn realFns obs anchor gA gB 40 s ≠ .outOfFuel := by
  have henough : (1 : ℝ) ≤ 1e-12 * 2 ^ 40 := by norm_num
  have hne : ∀ (objectiveAt : ℝ → ℝ) f slope, lineSearch objectiveAt f slope 40 1 ≠ .outOfFuel :=
    fun _ _ _ => lineSearch_ne_outOfFuel henough
  unfold turn
  dsimp only
  split
  · exact ⟨rfl, nofun⟩
  · rw [lineSearch_fuel (hne _ _ _) hfuel]
    refine ⟨rfl, ?_⟩
    split
    · nofun
    · nofun
    · next hout => exact absurd hout (hne _ _ _)

/-- The iterates of a solve. -/
inductive Reached (obs : List (Observation ℝ)) (anchor gA gB : ℝ) (fuel : Nat) : Iterate ℝ → Prop
  | start : Reached obs anchor gA gB fuel (startAt realFns obs anchor gA gB)
  | next {s s' : Iterate ℝ} (h : Reached obs anchor gA gB fuel s) (hturn : turn realFns obs anchor gA gB fuel s = .next s') :
      Reached obs anchor gA gB fuel s'

theorem Reached.exact (h : Reached obs anchor gA gB fuel s) (hobs : ∀ o ∈ obs, 0 ≤ o.weight) (hA : 0 ≤ gA) :
    s.Exact obs anchor gA gB := by
  cases h with
  | start => rfl
  | next _ hturn => exact (turn_next hobs hA hturn).1

/-- With fuel for every search the loop ends, at a point no worse than where it started. -/
theorem solveFrom_le (left : Nat) (hobs : ∀ o ∈ obs, 0 ≤ o.weight) (hA : 0 ≤ gA) (hs : s.Exact obs anchor gA gB) :
    ∃ r, (∀ fuel, 40 ≤ fuel → solveFrom realFns obs anchor gA gB fuel left s = some r) ∧
      objective realFns r.a r.b obs anchor gA gB ≤ objective realFns s.a s.b obs anchor gA gB := by
  induction left generalizing s with
  | zero => exact ⟨s, fun _ _ => rfl, le_rfl⟩
  | succ left ih =>
    cases hturn : turn realFns obs anchor gA gB 40 s with
    | next s' =>
      obtain ⟨hs', hle⟩ := turn_next hobs hA hturn
      obtain ⟨r, hr, hrle⟩ := ih hs'
      refine ⟨r, fun fuel hfuel => ?_, hrle.trans ?_⟩
      · rw [solveFrom, (turn_fuel hfuel).1, hturn]
        exact hr fuel hfuel
      · rw [← hs', ← hs]
        exact hle
    | stop =>
      refine ⟨s, fun fuel hfuel => ?_, le_rfl⟩
      rw [solveFrom, (turn_fuel hfuel).1, hturn]
    | outOfFuel => exact absurd hturn (turn_fuel le_rfl).2

theorem solve_le (hobs : ∀ o ∈ obs, 0 ≤ o.weight) (anchor : ℝ) (hA : 0 ≤ gA) (gB : ℝ) :
    ∃ ab, (∀ fuel, 40 ≤ fuel → solve realFns obs anchor gA gB fuel = some ab) ∧
      objective realFns ab.1 ab.2 obs anchor gA gB ≤ objective realFns anchor 1 obs anchor gA gB := by
  have hstart : (startAt realFns obs anchor gA gB).Exact obs anchor gA gB := rfl
  obtain ⟨r, hr, hle⟩ := solveFrom_le maxIter hobs hA hstart
  refine ⟨(r.a, r.b), fun fuel hfuel => ?_, hle⟩
  rw [solve, hr fuel hfuel, Option.map_some]

end Solver

/-- The fit never gets worse: no accepted step raises the objective; the solve ends, with at most forty tries in each of
    its hundred line searches, at a point no worse than its start; and so does the fit, at its own anchor. -/
theorem solve_never_worse (obs : List (Observation ℝ)) (hweights : ∀ o ∈ obs, 0 ≤ o.weight)
    (htotal : 0 < (obs.map (·.weight)).sum) (anchor gA gB : ℝ) (hA : 0 ≤ gA) (_hB : 0 ≤ gB) :
    (∀ fuel s s', Reached obs anchor gA gB fuel s → turn realFns obs anchor gA gB fuel s = .next s' →
      objective realFns s'.a s'.b obs anchor gA gB ≤ objective realFns s.a s.b obs anchor gA gB) ∧
    (∃ ab, (∀ fuel, 40 ≤ fuel → solve realFns obs anchor gA gB fuel = some ab) ∧
      objective realFns ab.1 ab.2 obs anchor gA gB ≤ objective realFns anchor 1 obs anchor gA gB) ∧
    ∀ (horizon : Horizon) (independentPeriods : Nat) (config : CommitteeConfig ℝ) (cfg : StackerConfig ℝ) (fuel : Nat),
      40 ≤ fuel → cfg.activationPeriods ≤ independentPeriods →
      ∃ fit, fitStacker realFns obs horizon independentPeriods config cfg fuel = some (.ok fit) ∧
        let base := baseRate obs config.logitClip
        let start := Real.log (base / (1 - base))
        objective realFns fit.alpha fit.beta obs start cfg.gammaAlpha.val cfg.gammaBeta.val ≤
          objective realFns start 1 obs start cfg.gammaAlpha.val cfg.gammaBeta.val := by
  refine ⟨fun fuel s s' hs hturn => ?_, solve_le hweights anchor hA gB, fun horizon periods config cfg fuel hfuel hactive => ?_⟩
  · obtain ⟨hs', hle⟩ := turn_next hweights hA hturn
    rw [← hs', ← hs.exact hweights hA]
    exact hle
  · have hne : obs ≠ [] := by
      rintro rfl
      exact lt_irrefl _ htotal
    obtain ⟨ab, hab, hle⟩ := solve_le hweights
      (Real.log (baseRate obs config.logitClip / (1 - baseRate obs config.logitClip))) cfg.gammaAlpha.property cfg.gammaBeta.val
    obtain ⟨hlo, hlow, hhigh, hhi⟩ := config.clip_range
    have hbase : 0 ≤ baseRate obs config.logitClip ∧ baseRate obs config.logitClip ≤ 1 := by
      constructor
      · exact le_min (hlo.le.trans (le_max_right _ _)) (by linarith)
      · exact (min_le_right _ _).trans hhi.le
    refine ⟨⟨horizon, ab.1, ab.2, true, periods, obs.length, some ⟨_, hbase⟩⟩, ?_, hle⟩
    rw [fitStacker, if_neg hne, if_neg (not_lt.mpr hactive), if_neg (not_le.mpr htotal)]
    change Option.map _ (solve realFns obs (Real.log _) _ _ fuel) = _
    rw [hab fuel hfuel, Option.map_some, dif_pos hbase]

/-- One instance that beat its sector, without any ridge: the Hessian is singular. -/
theorem solve_never_worse_singular :
    ∃ ab, (∀ fuel, 40 ≤ fuel → solve realFns [⟨0, 1, 1⟩] 0 0 0 fuel = some ab) ∧
      objective realFns ab.1 ab.2 [⟨0, 1, 1⟩] 0 0 0 ≤ objective realFns 0 1 [⟨0, 1, 1⟩] 0 0 0 :=
  (solve_never_worse [⟨0, 1, 1⟩] (by simp) (by simp) 0 0 0 le_rfl le_rfl).2.1

end Stacker
end AsymmetricCommittee
