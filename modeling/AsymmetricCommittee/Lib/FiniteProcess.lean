import Mathlib.Algebra.Order.BigOperators.Ring.Finset
import Mathlib.Algebra.Order.Field.Basic
import Mathlib.Tactic.Linarith
import Mathlib.Tactic.Positivity

/-! Finite-support stochastic processes in discrete time: conditional expectation given the past,
    nonnegative supermartingales as functions of the past, and Ville's maximal inequality. -/

namespace FiniteProcess
open Finset

variable {Ω α K : Type*}

/-! ### The past -/

/-- What was observed before time `t`. -/
def past (X : ℕ → Ω → α) (t : ℕ) (ω : Ω) : List α := (List.range t).map fun s => X s ω

@[simp] theorem past_zero (X : ℕ → Ω → α) (ω : Ω) : past X 0 ω = [] := rfl

@[simp] theorem past_succ (X : ℕ → Ω → α) (t : ℕ) (ω : Ω) : past X (t + 1) ω = past X t ω ++ [X t ω] := by
  simp [past, List.range_succ]

@[simp] theorem length_past (X : ℕ → Ω → α) (t : ℕ) (ω : Ω) : (past X t ω).length = t := by
  simp [past]

theorem take_past (X : ℕ → Ω → α) {s t : ℕ} (h : s ≤ t) (ω : Ω) : (past X t ω).take s = past X s ω := by
  rw [past, ← List.map_take, List.take_range, Nat.min_eq_left h, past]

/-! ### Conditional expectation -/

variable [Fintype Ω] [DecidableEq α] [Field K] [LinearOrder K]

/-- A probability on a finite sample space. -/
structure Probability (Ω K : Type*) [Fintype Ω] [Field K] [LinearOrder K] where
  weight : Ω → K
  nonneg : ∀ ω, 0 ≤ weight ω
  sum_one : ∑ ω, weight ω = 1

/-- The probability of an event. -/
def Probability.prob (P : Probability Ω K) (E : Ω → Prop) [DecidablePred E] : K := ∑ ω with E ω, P.weight ω

/-- The conditional expectation of `g` of the observation at time `t`, given that the past is `h`. -/
def condExp (P : Probability Ω K) (X : ℕ → Ω → α) (t : ℕ) (g : α → K) (h : List α) : K :=
  (∑ ω with past X t ω = h, P.weight ω * g (X t ω)) / ∑ ω with past X t ω = h, P.weight ω

theorem condExp_neg (P : Probability Ω K) (X : ℕ → Ω → α) (t : ℕ) (g : α → K) (h : List α) :
    condExp P X t (fun x => -g x) h = -condExp P X t g h := by
  simp only [condExp, mul_neg, sum_neg_distrib, neg_div]

variable [IsStrictOrderedRing K] {P : Probability Ω K} {X : ℕ → Ω → α}

omit [DecidableEq α] in
theorem Probability.prob_mono {E F : Ω → Prop} [DecidablePred E] [DecidablePred F] (h : ∀ ω, E ω → F ω) :
    P.prob E ≤ P.prob F := by
  refine sum_le_sum_of_subset_of_nonneg (fun ω hω => ?_) fun ω _ _ => P.nonneg ω
  simp only [mem_filter, mem_univ, true_and] at hω ⊢
  exact h ω hω

/-- A conditional expectation that is not positive is an unnormalised one that is not. -/
theorem sum_nonpos_of_condExp {t : ℕ} {g : α → K} {h : List α} (hg : condExp P X t g h ≤ 0) :
    ∑ ω with past X t ω = h, P.weight ω * g (X t ω) ≤ 0 := by
  have hmass : 0 ≤ ∑ ω with past X t ω = h, P.weight ω := sum_nonneg fun ω _ => P.nonneg ω
  rcases hmass.eq_or_lt with hzero | hpos
  · -- a past of probability zero carries no weight at all
    have hw := (sum_eq_zero_iff_of_nonneg fun ω _ => P.nonneg ω).mp hzero.symm
    rw [sum_eq_zero fun ω hω => by rw [hw ω hω, zero_mul]]
  · rwa [condExp, div_le_iff₀ hpos, zero_mul] at hg

/-- Weighting by a nonnegative function of the past keeps the sign of the conditional expectations. -/
theorem sum_predictable_nonpos {t : ℕ} {g : α → K} (hg : ∀ h, condExp P X t g h ≤ 0) {Z : List α → K}
    (hZ : ∀ h, 0 ≤ Z h) : ∑ ω, P.weight ω * (Z (past X t ω) * g (X t ω)) ≤ 0 := by
  classical
  rw [← sum_fiberwise_of_maps_to (s := univ) (t := univ.image (past X t)) (g := past X t)
    fun ω _ => mem_image_of_mem _ (mem_univ ω)]
  refine sum_nonpos fun h _ => ?_
  calc ∑ ω with past X t ω = h, P.weight ω * (Z (past X t ω) * g (X t ω))
      = Z h * ∑ ω with past X t ω = h, P.weight ω * g (X t ω) := by
        rw [mul_sum]
        refine sum_congr rfl fun ω hω => ?_
        rw [(mem_filter.mp hω).2]
        ring
    _ ≤ 0 := mul_nonpos_of_nonneg_of_nonpos (hZ h) (sum_nonpos_of_condExp (hg h))

/-! ### Wealth processes -/

/-- A wealth that bets the fraction `bet h` of itself on `g`, the bet being fixed by the past, and never
    goes below zero. -/
structure Wealth (g : α → K) where
  wealth : List α → K
  bet : List α → K
  wealth_nonneg : ∀ h, 0 ≤ wealth h
  bet_nonneg : ∀ h, 0 ≤ bet h
  wealth_append : ∀ h x, wealth (h ++ [x]) = wealth h * (1 + bet h * g x)

/-- The wealth has reached `c` at some time up to the last of a past. -/
def Hit (W : List α → K) (c : K) (h : List α) : Prop := ∃ s ≤ h.length, c ≤ W (h.take s)

instance (W : List α → K) (c : K) (h : List α) : Decidable (Hit W c h) :=
  decidable_of_iff (∃ s ∈ List.range (h.length + 1), c ≤ W (h.take s))
    ⟨fun ⟨s, hs, hc⟩ => ⟨s, Nat.lt_succ_iff.mp (List.mem_range.mp hs), hc⟩,
      fun ⟨s, hs, hc⟩ => ⟨s, List.mem_range.mpr (Nat.lt_succ_iff.mpr hs), hc⟩⟩

/-- The wealth stopped at its first passage of `c`, counted as `c` from then on. -/
def stopped (W : List α → K) (c : K) (h : List α) : K := if Hit W c h then c else W h

omit [DecidableEq α] [IsStrictOrderedRing K] [Field K] in
theorem hit_append {W : List α → K} {c : K} {h : List α} {x : α} :
    Hit W c (h ++ [x]) ↔ Hit W c h ∨ c ≤ W (h ++ [x]) := by
  constructor
  · rintro ⟨s, hs, hc⟩
    rw [List.length_append, List.length_singleton] at hs
    rcases Nat.lt_or_eq_of_le hs with hlt | rfl
    · rw [List.take_append_of_le_length (Nat.lt_succ_iff.mp hlt)] at hc
      exact Or.inl ⟨s, Nat.lt_succ_iff.mp hlt, hc⟩
    · rw [List.take_of_length_le (by simp)] at hc
      exact Or.inr hc
  · rintro (⟨s, hs, hc⟩ | hc)
    · refine ⟨s, hs.trans (by simp), ?_⟩
      rwa [List.take_append_of_le_length hs]
    · exact ⟨(h ++ [x]).length, le_rfl, by rwa [List.take_length]⟩

omit [DecidableEq α] [IsStrictOrderedRing K] in
/-- One more observation moves the stopped wealth by at most the bet's gain, and by nothing once stopped. -/
theorem stopped_append_le {g : α → K} (W : Wealth g) (c : K) (h : List α) (x : α) :
    stopped W.wealth c (h ++ [x]) ≤
      stopped W.wealth c h + (if Hit W.wealth c h then 0 else W.wealth h * W.bet h) * g x := by
  unfold stopped
  by_cases hh : Hit W.wealth c h
  · rw [if_pos hh, if_pos hh, if_pos (hit_append.mpr (Or.inl hh)), zero_mul, add_zero]
  · have hgain : W.wealth (h ++ [x]) = W.wealth h + W.wealth h * W.bet h * g x := by
      rw [W.wealth_append]
      ring
    rw [if_neg hh, if_neg hh, ← hgain]
    split
    · rename_i hx
      exact (hit_append.mp hx).resolve_left hh
    · exact le_rfl

/-- The stopped wealth is expected to fall. -/
theorem stopped_step {g : α → K} (W : Wealth g) (c : K) {t : ℕ} (hg : ∀ h, condExp P X t g h ≤ 0) :
    ∑ ω, P.weight ω * stopped W.wealth c (past X (t + 1) ω) ≤
      ∑ ω, P.weight ω * stopped W.wealth c (past X t ω) := by
  have hdrift := sum_predictable_nonpos hg (Z := fun h => if Hit W.wealth c h then 0 else W.wealth h * W.bet h)
    fun h => by
      split
      · exact le_rfl
      · exact mul_nonneg (W.wealth_nonneg h) (W.bet_nonneg h)
  calc ∑ ω, P.weight ω * stopped W.wealth c (past X (t + 1) ω)
      ≤ ∑ ω, (P.weight ω * stopped W.wealth c (past X t ω) + P.weight ω *
          ((if Hit W.wealth c (past X t ω) then 0 else W.wealth (past X t ω) * W.bet (past X t ω)) * g (X t ω))) := by
        refine sum_le_sum fun ω _ => ?_
        rw [past_succ, ← mul_add]
        exact mul_le_mul_of_nonneg_left (stopped_append_le W c _ _) (P.nonneg ω)
    _ ≤ ∑ ω, P.weight ω * stopped W.wealth c (past X t ω) := by
        rw [sum_add_distrib]
        linarith

/-- The expected stopped wealth never exceeds the starting wealth. -/
theorem stopped_run {g : α → K} (W : Wealth g) {c : K} {n : ℕ}
    (hg : ∀ t < n, ∀ h, condExp P X t g h ≤ 0) :
    ∑ ω, P.weight ω * stopped W.wealth c (past X n ω) ≤ W.wealth [] := by
  induction n with
  | zero =>
    have hstart : stopped W.wealth c [] ≤ W.wealth [] := by
      unfold stopped
      split
      · rename_i hit
        obtain ⟨s, -, hs⟩ := hit
        rwa [List.take_nil] at hs
      · exact le_rfl
    calc ∑ ω, P.weight ω * stopped W.wealth c (past X 0 ω)
        = (∑ ω, P.weight ω) * stopped W.wealth c [] := by simp only [past_zero, sum_mul]
      _ ≤ W.wealth [] := by rwa [P.sum_one, one_mul]
  | succ n ih =>
    exact (stopped_step W c (hg n n.lt_succ_self)).trans (ih fun t ht => hg t (ht.trans n.lt_succ_self))

/-- Ville's inequality: a wealth that bets on something never expected to be positive reaches `c` with
    probability at most its starting value over `c`. -/
theorem ville {g : α → K} (W : Wealth g) {c : K} (hc : 0 < c) {n : ℕ}
    (hg : ∀ t < n, ∀ h, condExp P X t g h ≤ 0) :
    P.prob (fun ω => Hit W.wealth c (past X n ω)) ≤ W.wealth [] / c := by
  rw [le_div_iff₀ hc, Probability.prob, sum_mul, sum_filter]
  refine (sum_le_sum fun ω _ => ?_).trans (stopped_run W (c := c) hg)
  unfold stopped
  split
  · exact le_rfl
  · exact mul_nonneg (P.nonneg ω) (W.wealth_nonneg _)

end FiniteProcess
