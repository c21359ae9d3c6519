import AsymmetricCommittee.Committee.Stacker
import AsymmetricCommittee.Lib.Windows
import Mathlib.Algebra.BigOperators.Field
import Mathlib.Algebra.Order.BigOperators.Ring.Finset
import Mathlib.Analysis.Real.Sqrt

/-! The effective number of agents. Normalised error vectors have length one, so that a correlation is an inner product of
    two of them and the denominator, times the number of agents, is the square of the length of their sum. -/

namespace AsymmetricCommittee
namespace Stacker
open Finset Windows

/-! ### Sums over pairs -/

section Pairs
variable {K α : Type} [Field K] {f g : α → α → K} {l : List α}

theorem pairTotal_congr (h : ∀ a ∈ l, ∀ b ∈ l, f a b = g a b) : pairTotal f l = pairTotal g l := by
  induction l with
  | nil => rfl
  | cons a l ih =>
    have hhead : l.map (f a) = l.map (g a) :=
      List.map_congr_left fun b hb => h a List.mem_cons_self b (List.mem_cons_of_mem a hb)
    have hrest := ih fun x hx y hy => h x (List.mem_cons_of_mem a hx) y (List.mem_cons_of_mem a hy)
    rw [pairTotal, pairTotal, hhead, hrest]

/-- The square of a sum: the squares and twice the products of the pairs. -/
theorem sum_sq_eq_pairTotal (u : α → K) (l : List α) :
    (l.map u).sum ^ 2 = (l.map fun a => u a ^ 2).sum + 2 * pairTotal (fun a b => u a * u b) l := by
  induction l with
  | nil => simp [pairTotal]
  | cons a l ih =>
    rw [List.map_cons, List.sum_cons, List.map_cons, List.sum_cons, pairTotal, List.sum_map_mul_left, add_sq, ih]
    ring

theorem sum_map_sum {ι : Type} (s : Finset ι) (g : ι → α → K) (l : List α) :
    ∑ k ∈ s, (l.map (g k)).sum = (l.map fun b => ∑ k ∈ s, g k b).sum := by
  induction l with
  | nil => simp
  | cons b l ih => simp only [List.map_cons, List.sum_cons, sum_add_distrib, ih]

theorem sum_pairTotal {ι : Type} (s : Finset ι) (g : ι → α → α → K) (l : List α) :
    ∑ k ∈ s, pairTotal (g k) l = pairTotal (fun a b => ∑ k ∈ s, g k a b) l := by
  induction l with
  | nil => simp [pairTotal]
  | cons a l ih => simp only [pairTotal, sum_add_distrib, ih, sum_map_sum s (fun k => g k a) l]

variable [LinearOrder K] [IsStrictOrderedRing K]

theorem abs_sum_map_le {u : α → K} (h : ∀ a ∈ l, |u a| ≤ 1) : |(l.map u).sum| ≤ l.length := by
  induction l with
  | nil => simp
  | cons a l ih =>
    rcases List.forall_mem_cons.mp h with ⟨ha, hl⟩
    rw [List.map_cons, List.sum_cons, List.length_cons]
    refine (abs_add_le _ _).trans ((add_le_add ha (ih hl)).trans (le_of_eq ?_))
    push_cast
    ring

/-- There are `n (n - 1) / 2` pairs. -/
theorem abs_pairTotal_le (h : ∀ a ∈ l, ∀ b ∈ l, |f a b| ≤ 1) : |pairTotal f l| ≤ l.length * (l.length - 1) / 2 := by
  induction l with
  | nil => simp [pairTotal]
  | cons a l ih =>
    have hrow : |(l.map (f a)).sum| ≤ l.length :=
      abs_sum_map_le fun b hb => h a List.mem_cons_self b (List.mem_cons_of_mem a hb)
    have hrest := ih fun x hx y hy => h x (List.mem_cons_of_mem a hx) y (List.mem_cons_of_mem a hy)
    rw [pairTotal, List.length_cons]
    refine (abs_add_le _ _).trans ((add_le_add hrow hrest).trans (le_of_eq ?_))
    push_cast
    ring

end Pairs

/-! ### Normalised vectors -/

section Vectors
variable {m : Nat} {vectors : List (List ℝ)} {v w : List ℝ}

/-- A member of the vector at length one. -/
noncomputable def unit (v : List ℝ) (k : Nat) : ℝ := at0 v k / norm Real.sqrt v

/-- The sum of the normalised vectors. -/
noncomputable def unitSum (vectors : List (List ℝ)) (k : Nat) : ℝ := (vectors.map fun v => unit v k).sum

theorem dot_eq (hw : w.length = m) : dot v w = ∑ k ∈ range m, at0 v k * at0 w k := by
  rw [dot, sum_zipWith, hw]

theorem norm_sq (hv : v.length = m) : norm Real.sqrt v ^ 2 = ∑ k ∈ range m, at0 v k ^ 2 := by
  have hsum : (v.map fun c => c * c).sum = ∑ k ∈ range m, at0 v k ^ 2 := by
    have h := dot_eq (v := v) hv
    rw [dot, List.zipWith_self] at h
    rw [h]
    exact sum_congr rfl fun k _ => (sq _).symm
  rw [norm, hsum]
  exact Real.sq_sqrt (sum_nonneg fun k _ => sq_nonneg _)

/-- A normalised vector has length one. -/
theorem sum_unit_sq (hv : v.length = m) (hpos : 0 < norm Real.sqrt v) : ∑ k ∈ range m, unit v k ^ 2 = 1 := by
  simp only [unit, div_pow]
  rw [← sum_div, ← norm_sq hv]
  exact div_self (pow_pos hpos 2).ne'

theorem correlation_eq (hw : w.length = m) : correlation Real.sqrt v w = ∑ k ∈ range m, unit v k * unit w k := by
  rw [correlation, dot_eq hw, sum_div]
  exact sum_congr rfl fun k _ => (div_mul_div_comm _ _ _ _).symm

/-- By the inequality of Cauchy and Schwarz. -/
theorem abs_correlation_le (hv : v.length = m) (hw : w.length = m) (hvpos : 0 < norm Real.sqrt v)
    (hwpos : 0 < norm Real.sqrt w) : |correlation Real.sqrt v w| ≤ 1 := by
  rw [← sq_le_one_iff_abs_le_one, correlation_eq hw]
  refine (sum_mul_sq_le_sq_mul_sq _ _ _).trans ?_
  rw [sum_unit_sq hv hvpos, sum_unit_sq hw hwpos, one_mul]

/-- The vectors are of one length and none is zero. -/
def Spread (m : Nat) (vectors : List (List ℝ)) : Prop := ∀ v ∈ vectors, v.length = m ∧ 0 < norm Real.sqrt v

/-- The clip of the source changes nothing. -/
theorem clip_correlation (h : Spread m vectors) (hv : v ∈ vectors) (hw : w ∈ vectors) :
    max (-1) (min 1 (correlation Real.sqrt v w)) = correlation Real.sqrt v w := by
  obtain ⟨hlow, hhigh⟩ := abs_le.mp (abs_correlation_le (h v hv).1 (h w hw).1 (h v hv).2 (h w hw).2)
  rw [min_eq_right hhigh, max_eq_right hlow]

theorem pairTotal_correlation (h : Spread m vectors) :
    pairTotal (fun v w => max (-1) (min 1 (correlation Real.sqrt v w))) vectors =
      pairTotal (fun v w => ∑ k ∈ range m, unit v k * unit w k) vectors := by
  refine pairTotal_congr fun v hv w hw => ?_
  rw [clip_correlation h hv hw, correlation_eq (h w hw).1]

/-- The square of the length of the sum of the normalised vectors. -/
theorem sum_unitSum_sq (h : Spread m vectors) : ∑ k ∈ range m, unitSum vectors k ^ 2 =
    vectors.length + 2 * pairTotal (fun v w => max (-1) (min 1 (correlation Real.sqrt v w))) vectors := by
  have hunits : (vectors.map fun v => ∑ k ∈ range m, unit v k ^ 2).sum = vectors.length := by
    have hones : (vectors.map fun v => ∑ k ∈ range m, unit v k ^ 2) = vectors.map fun _ => (1 : ℝ) :=
      List.map_congr_left fun v hv => sum_unit_sq (h v hv).1 (h v hv).2
    rw [hones, List.map_const', List.sum_replicate, nsmul_eq_mul, mul_one]
  rw [pairTotal_correlation h, ← sum_pairTotal, ← hunits, ← sum_map_sum, mul_sum, ← sum_add_distrib]
  exact sum_congr rfl fun k _ => sum_sq_eq_pairTotal (fun v => unit v k) vectors

theorem denominator_eq (h : Spread m vectors) (htwo : 2 ≤ vectors.length) :
    denominator Real.sqrt vectors = (∑ k ∈ range m, unitSum vectors k ^ 2) / vectors.length := by
  have hlength : (2 : ℝ) ≤ vectors.length := by exact_mod_cast htwo
  have hne : (vectors.length : ℝ) ≠ 0 := by linarith
  have hne' : (vectors.length : ℝ) - 1 ≠ 0 := by linarith
  rw [sum_unitSum_sq h, denominator, meanCorrelation, Nat.cast_ofNat]
  field_simp

theorem abs_meanCorrelation_le (h : Spread m vectors) (htwo : 2 ≤ vectors.length) :
    |meanCorrelation Real.sqrt vectors| ≤ 1 := by
  have hlength : (2 : ℝ) ≤ vectors.length := by exact_mod_cast htwo
  have hpairs : (0 : ℝ) < vectors.length * (vectors.length - 1) / 2 := by
    have : (0 : ℝ) < vectors.length - 1 := by linarith
    positivity
  rw [meanCorrelation, Nat.cast_ofNat, abs_div, abs_of_pos hpairs, div_le_one hpairs]
  refine abs_pairTotal_le fun v hv w hw => ?_
  rw [clip_correlation h hv hw]
  exact abs_correlation_le (h v hv).1 (h w hw).1 (h v hv).2 (h w hw).2

theorem denominator_nonneg (h : Spread m vectors) (htwo : 2 ≤ vectors.length) : 0 ≤ denominator Real.sqrt vectors := by
  rw [denominator_eq h htwo]
  exact div_nonneg (sum_nonneg fun k _ => sq_nonneg _) (Nat.cast_nonneg _)

theorem denominator_eq_zero (h : Spread m vectors) (htwo : 2 ≤ vectors.length) :
    denominator Real.sqrt vectors = 0 ↔ ∀ k < m, unitSum vectors k = 0 := by
  have hne : (vectors.length : ℝ) ≠ 0 := Nat.cast_ne_zero.mpr (by omega)
  rw [denominator_eq h htwo, div_eq_zero_iff, or_iff_left hne, sum_eq_zero_iff_of_nonneg fun k _ => sq_nonneg _]
  simp

/-- The denominator is at most the number of agents. -/
theorem denominator_le (h : Spread m vectors) (htwo : 2 ≤ vectors.length) : denominator Real.sqrt vectors ≤ vectors.length := by
  have hlength : (2 : ℝ) ≤ vectors.length := by exact_mod_cast htwo
  have hmean := (abs_le.mp (abs_meanCorrelation_le h htwo)).2
  have hmul : (vectors.length - 1) * meanCorrelation Real.sqrt vectors ≤ (vectors.length - 1 : ℝ) * 1 :=
    mul_le_mul_of_nonneg_left hmean (by linarith)
  rw [denominator]
  linarith

theorem meanCorrelation_ge (h : Spread m vectors) (htwo : 2 ≤ vectors.length) :
    -1 / (vectors.length - 1 : ℝ) ≤ meanCorrelation Real.sqrt vectors := by
  have hlength : (2 : ℝ) ≤ vectors.length := by exact_mod_cast htwo
  have hdenominator := denominator_nonneg h htwo
  rw [denominator] at hdenominator
  rw [div_le_iff₀ (by linarith), mul_comm]
  linarith

end Vectors

/-! ### The function -/

section Function
variable {forecasts : Dict String (List ℝ)} {outcomes : List Int} {horizon : Horizon}

/-- The centred errors of the agents in their order. -/
noncomputable def errorVectors (forecasts : Dict String (List ℝ)) (outcomes : List Int) : List (List ℝ) :=
  (forecastsOf forecasts).map fun a => centered a.2 outcomes

theorem mem_forecastsOf {e : String × List ℝ} : e ∈ forecastsOf forecasts ↔ e ∈ forecasts.entries :=
  (List.perm_insertionSort _ _).mem_iff

theorem length_forecastsOf (forecasts : Dict String (List ℝ)) :
    (forecastsOf forecasts).length = forecasts.entries.length := List.length_insertionSort _ _

theorem length_errorVectors (forecasts : Dict String (List ℝ)) (outcomes : List Int) :
    (errorVectors forecasts outcomes).length = forecasts.entries.length := by
  rw [errorVectors, List.length_map, length_forecastsOf]

theorem length_centered {forecast : List ℝ} (h : forecast.length = outcomes.length) :
    (centered forecast outcomes).length = outcomes.length := by
  simp [centered, h]

/-- The agents' errors are all told apart from constant ones. -/
def Tells (forecasts : Dict String (List ℝ)) (outcomes : List Int) : Prop :=
  ∀ e ∈ forecasts.entries, 1e-12 < norm Real.sqrt (centered e.2 outcomes)

theorem spread_errorVectors (hlength : ∀ e ∈ forecasts.entries, e.2.length = outcomes.length)
    (hnorm : Tells forecasts outcomes) : Spread outcomes.length (errorVectors forecasts outcomes) := by
  intro v hv
  obtain ⟨e, he, rfl⟩ := List.mem_map.mp hv
  have hmem := mem_forecastsOf.mp he
  exact ⟨length_centered (hlength e hmem), lt_trans (by norm_num) (hnorm e hmem)⟩

/-- Past its checks the function comes to its denominator. -/
theorem computeEffectiveAgents_eq (hagents : 2 ≤ forecasts.entries.length) (hm : 2 ≤ outcomes.length)
    (hlength : ∀ e ∈ forecasts.entries, e.2.length = outcomes.length) (hnorm : Tells forecasts outcomes) :
    (denominator Real.sqrt (errorVectors forecasts outcomes) ≤ 0 ∧
      computeEffectiveAgents Real.sqrt forecasts outcomes horizon = .error .undefinedNEff) ∨
    (0 < denominator Real.sqrt (errorVectors forecasts outcomes) ∧
      ∃ r, computeEffectiveAgents Real.sqrt forecasts outcomes horizon = .ok r ∧
        r.nEff = forecasts.entries.length / denominator Real.sqrt (errorVectors forecasts outcomes) ∧
        r.meanCorrelation = meanCorrelation Real.sqrt (errorVectors forecasts outcomes)) := by
  have hvectors : ((forecastsOf forecasts).map fun a => (a.1, centered a.2 outcomes)).map (·.2) =
      errorVectors forecasts outcomes := by
    rw [List.map_map]
    rfl
  have hnone : constantAgent Real.sqrt ((forecastsOf forecasts).map fun a => (a.1, centered a.2 outcomes)) = none := by
    rw [constantAgent, Option.map_eq_none_iff, List.find?_eq_none]
    intro v hv
    obtain ⟨e, he, rfl⟩ := List.mem_map.mp hv
    simpa using hnorm e (mem_forecastsOf.mp he)
  have hnot : ¬(forecastsOf forecasts).length < 2 := by
    rw [length_forecastsOf]
    omega
  have hinstances : ¬(outcomes.length < 2 ∨ (forecastsOf forecasts).any (fun a => a.2.length ≠ outcomes.length) = true) := by
    refine not_or.mpr ⟨by omega, fun hany => ?_⟩
    obtain ⟨e, he, hne⟩ := List.any_eq_true.mp hany
    exact of_decide_eq_true hne (hlength e (mem_forecastsOf.mp he))
  have hspread := spread_errorVectors hlength hnorm
  have htwo : 2 ≤ (errorVectors forecasts outcomes).length := by rwa [length_errorVectors]
  have hpos : (0 : ℝ) < forecasts.entries.length := Nat.cast_pos.mpr (by omega)
  unfold computeEffectiveAgents
  simp only [hnot, hinstances, dif_neg, not_false_eq_true, hnone, hvectors]
  rcases le_or_gt (denominator Real.sqrt (errorVectors forecasts outcomes)) 0 with hle | hgt
  · exact Or.inl ⟨hle, if_pos hle⟩
  · have hcontract : (-1 ≤ meanCorrelation Real.sqrt (errorVectors forecasts outcomes) ∧
        meanCorrelation Real.sqrt (errorVectors forecasts outcomes) ≤ 1) ∧
        0 < ((forecastsOf forecasts).length : ℝ) / denominator Real.sqrt (errorVectors forecasts outcomes) := by
      rw [length_forecastsOf]
      exact ⟨abs_le.mp (abs_meanCorrelation_le hspread htwo), div_pos hpos hgt⟩
    refine Or.inr ⟨hgt, _, (if_neg (not_le.mpr hgt)).trans (dif_pos hcontract), ?_, rfl⟩
    exact congrArg (fun n : Nat => (n : ℝ) / denominator Real.sqrt (errorVectors forecasts outcomes)) (length_forecastsOf forecasts)

/-- For every matrix of at least two agents and two instances whose errors pass for not constant: the correlations are in
    range before they are clipped, the mean one is at least `-1 / (A - 1)`, the denominator is not negative, the function
    refuses exactly when the normalised error vectors sum to zero, and reports an effective number of at least 1 otherwise. -/
theorem effectiveAgents_defined (forecasts : Dict String (List ℝ)) (outcomes : List Int) (horizon : Horizon)
    (hagents : 2 ≤ forecasts.entries.length) (hm : 2 ≤ outcomes.length)
    (hlength : ∀ e ∈ forecasts.entries, e.2.length = outcomes.length)
    (hnorm : ∀ e ∈ forecasts.entries, 1e-12 < norm Real.sqrt (centered e.2 outcomes)) :
    (∀ v ∈ errorVectors forecasts outcomes, ∀ w ∈ errorVectors forecasts outcomes,
      -1 ≤ correlation Real.sqrt v w ∧ correlation Real.sqrt v w ≤ 1) ∧
    -1 / ((forecasts.entries.length : ℝ) - 1) ≤ meanCorrelation Real.sqrt (errorVectors forecasts outcomes) ∧
    0 ≤ denominator Real.sqrt (errorVectors forecasts outcomes) ∧
    (∀ e, computeEffectiveAgents Real.sqrt forecasts outcomes horizon = .error e ↔
      e = .undefinedNEff ∧ ∀ k < outcomes.length, unitSum (errorVectors forecasts outcomes) k = 0) ∧
    ∀ r, computeEffectiveAgents Real.sqrt forecasts outcomes horizon = .ok r → 1 ≤ r.nEff := by
  have hspread := spread_errorVectors hlength hnorm
  have htwo : 2 ≤ (errorVectors forecasts outcomes).length := by rwa [length_errorVectors]
  have hnonneg := denominator_nonneg hspread htwo
  have hzero := denominator_eq_zero hspread htwo
  refine ⟨fun v hv w hw => ?_, ?_, hnonneg, fun e => ?_, fun r hr => ?_⟩
  · exact abs_le.mp (abs_correlation_le (hspread v hv).1 (hspread w hw).1 (hspread v hv).2 (hspread w hw).2)
  · rw [← length_errorVectors forecasts outcomes]
    exact meanCorrelation_ge hspread htwo
  · rw [← hzero]
    rcases computeEffectiveAgents_eq hagents hm hlength hnorm with ⟨hle, heq⟩ | ⟨hgt, r, heq, -⟩
    · rw [heq]
      constructor
      · intro h
        cases h
        exact ⟨rfl, le_antisymm hle hnonneg⟩
      · intro ⟨he, _⟩
        rw [he]
    · rw [heq]
      constructor
      · intro h
        cases h
      · intro ⟨_, hz⟩
        exact absurd hz hgt.ne'
  · rcases computeEffectiveAgents_eq hagents hm hlength hnorm with ⟨-, heq⟩ | ⟨hgt, r', heq, hn, -⟩
    · rw [heq] at hr
      cases hr
    · rw [heq] at hr
      cases hr
      rw [hn, one_le_div hgt, ← length_errorVectors forecasts outcomes]
      exact denominator_le hspread htwo

end Function

/-- Two agents with opposite errors. -/
noncomputable def oppositeErrors : Dict String (List ℝ) := ⟨[("a", [0, 1]), ("b", [1, 0])], by decide⟩

theorem effectiveAgents_opposite :
    2 ≤ oppositeErrors.entries.length ∧ 0 ≤ denominator Real.sqrt (errorVectors oppositeErrors [0, 0]) := by
  have hfirst : centered ([0, 1] : List ℝ) [0, 0] = [-1 / 2, 1 / 2] := by norm_num [centered]
  have hsecond : centered ([1, 0] : List ℝ) [0, 0] = [1 / 2, -1 / 2] := by norm_num [centered]
  have hnorm : ∀ e ∈ oppositeErrors.entries, 1e-12 < norm Real.sqrt (centered e.2 [0, 0]) := by
    simp only [oppositeErrors, List.forall_mem_cons, hfirst, hsecond, norm]
    refine ⟨Real.lt_sqrt_of_sq_lt (by norm_num), Real.lt_sqrt_of_sq_lt (by norm_num), List.forall_mem_nil _⟩
  exact ⟨le_rfl, (effectiveAgents_defined oppositeErrors [0, 0] .d21 le_rfl le_rfl (by simp [oppositeErrors]) hnorm).2.2.1⟩

/-! ### Errors that hardly differ -/

/-- Two agents that give the second instance a little more. -/
noncomputable def nearlyConstant : Dict String (List ℝ) := ⟨[("a", [0, 1e-13]), ("b", [0, 1e-13])], by decide⟩

theorem centered_nearly : centered ([0, 1e-13] : List ℝ) [0, 0] = [-5e-14, 5e-14] := by
  norm_num [centered]

theorem norm_nearly : norm Real.sqrt [-5e-14, 5e-14] ≤ 1e-12 ∧ 0 < norm Real.sqrt [-5e-14, 5e-14] := by
  rw [norm]
  constructor
  · rw [Real.sqrt_le_iff]
    norm_num
  · rw [Real.sqrt_pos]
    norm_num

theorem forecastsOf_nearlyConstant : forecastsOf nearlyConstant = [("a", [0, 1e-13]), ("b", [0, 1e-13])] := by
  have hab : "a" ≤ "b" := by decide
  simp [forecastsOf, nearlyConstant, List.insertionSort, hab]

/-- Their errors are not constant and their normalised errors do not sum to zero, but they are refused. -/
theorem nearlyConstant_refused :
    computeEffectiveAgents Real.sqrt nearlyConstant [0, 0] .d21 = .error (.constantErrors "a") ∧
    (∀ e ∈ nearlyConstant.entries, ∃ x ∈ centered e.2 [0, 0], x ≠ 0) ∧
    unitSum (errorVectors nearlyConstant [0, 0]) 1 ≠ 0 := by
  refine ⟨?_, ?_, ?_⟩
  · unfold computeEffectiveAgents
    simp [forecastsOf_nearlyConstant, centered_nearly, constantAgent, norm_nearly.1]
  · simp only [nearlyConstant, List.forall_mem_cons, centered_nearly]
    norm_num
  · have hpos := norm_nearly.2
    have hunit : 0 < unit [-5e-14, 5e-14] 1 := div_pos (by norm_num [at0]) hpos
    simp only [unitSum, errorVectors, forecastsOf_nearlyConstant, List.map_cons, List.map_nil, centered_nearly, List.sum_cons,
      List.sum_nil]
    linarith

end Stacker
end AsymmetricCommittee
