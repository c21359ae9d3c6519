import AsymmetricCommittee.Evaluation.Sequential
import AsymmetricCommittee.Lib.Except
import AsymmetricCommittee.Lib.Windows
import AsymmetricCommittee.Theorems.BettingProcess
import Mathlib.Algebra.BigOperators.Field
import Mathlib.Algebra.Order.Archimedean.Real.Basic
import Mathlib.Algebra.Order.Field.Basic
import Mathlib.Analysis.Real.Sqrt

/-! The long-run variance under Bartlett weights. An autocovariance may be negative, but the weighted sum of them is a sum
    of squares, one for each window of the deviations, so that the root of the diagnostic is taken of no negative number
    and its degenerate branch is entered by constant series only. -/

namespace AsymmetricCommittee
namespace Sequential
open Finset

section Field
variable {K : Type*} [Field K]

/-- The series demeaned. -/
def deviations (x : List K) : List K := x.map fun v => v - x.sum / x.length

@[simp] theorem length_deviations (x : List K) : (deviations x).length = x.length := List.length_map _

theorem foldl_range' (f : Nat → K) (a : K) (m : Nat) :
    (List.range' 1 m).foldl (fun acc j => acc + f j) a = a + ∑ j ∈ range m, f (j + 1) := by
  induction m with
  | zero => simp
  | succ m ih =>
    rw [List.range'_1_concat, List.foldl_append, ih, List.foldl_cons, List.foldl_nil, sum_range_succ, add_comm 1 m, add_assoc]

theorem sum_sq_eq_lagged (d : List K) : (d.map fun v => v * v).sum = Windows.lagged d 0 := by
  rw [Windows.lagged, List.drop_zero, List.zipWith_self]

theorem deviations_eq_zero (x : List K) : (∀ v ∈ deviations x, v = 0) ↔ ∀ v ∈ x, v = x.sum / x.length := by
  simp [deviations, sub_eq_zero]

/-- A bandwidth that is accepted is in range. -/
theorem bandwidth_of_ok {x : List K} {bandwidth : Nat} {lrv : K} (h : bartlettLrv x bandwidth = .ok lrv) :
    1 ≤ bandwidth ∧ bandwidth ≤ x.length := by
  by_contra hrange
  have hunfold : bartlettLrv x bandwidth = .error .bandwidthOutOfRange := if_pos (by omega)
  rw [hunfold] at h
  cases h

variable [LinearOrder K] [IsStrictOrderedRing K]

/-- The variance in terms of the lagged products of the deviations. -/
theorem bartlettLrv_eq (x : List K) {bandwidth : Nat} (h1 : 1 ≤ bandwidth) (hn : bandwidth ≤ x.length) :
    bartlettLrv x bandwidth = .ok ((∑ s ∈ range (x.length + bandwidth), Windows.window (deviations x) bandwidth s ^ 2) /
      (x.length * bandwidth)) := by
  have hlength : ((x.length : Nat) : K) ≠ 0 := Nat.cast_ne_zero.mpr (by omega)
  have hbandwidth : ((bandwidth : Nat) : K) ≠ 0 := Nat.cast_ne_zero.mpr (by omega)
  have hrange : ¬(bandwidth < 1 ∨ bandwidth > x.length) := by omega
  have hsquares := Windows.sum_window_sq (deviations x) bandwidth
  rw [length_deviations] at hsquares
  -- the term of the lag `bandwidth` has weight zero
  have hlags : ∑ j ∈ range bandwidth, ((bandwidth : K) - (j + 1)) * Windows.lagged (deviations x) (j + 1) =
      ∑ j ∈ range (bandwidth - 1), ((bandwidth : K) - (j + 1)) * Windows.lagged (deviations x) (j + 1) := by
    obtain ⟨m, rfl⟩ := Nat.exists_eq_add_of_le' h1
    rw [sum_range_succ, Nat.add_sub_cancel]
    push_cast
    ring
  have hterms : ∑ j ∈ range (bandwidth - 1), 2 * (1 - ((j + 1 : Nat) : K) / bandwidth) *
      (Windows.lagged (deviations x) (j + 1) / x.length) =
      2 * (∑ j ∈ range (bandwidth - 1), ((bandwidth : K) - (j + 1)) * Windows.lagged (deviations x) (j + 1)) /
        (x.length * bandwidth) := by
    rw [mul_sum, sum_div]
    refine sum_congr rfl fun j _ => ?_
    push_cast
    field_simp
  have hunfold : bartlettLrv x bandwidth = .ok ((List.range' 1 (bandwidth - 1)).foldl (fun (lrv : K) (j : Nat) => lrv +
      2 * (1 - (j : K) / bandwidth) * (Windows.lagged (deviations x) j / x.length))
      (((deviations x).map fun v => v * v).sum / x.length)) := if_neg hrange
  rw [hunfold, foldl_range', sum_sq_eq_lagged, hterms, hsquares, hlags]
  congr 1
  field_simp

/-- The variance is not negative, and it is zero on the constant series only. -/
theorem bartlettLrv_nonneg_of_le (x : List K) {bandwidth : Nat} (h1 : 1 ≤ bandwidth) (hn : bandwidth ≤ x.length) :
    ∃ lrv, bartlettLrv x bandwidth = .ok lrv ∧ 0 ≤ lrv ∧ (lrv = 0 ↔ ∀ v ∈ x, v = x.sum / x.length) := by
  have hlength : (0 : K) < x.length := Nat.cast_pos.mpr (by omega)
  have hbandwidth : (0 : K) < bandwidth := Nat.cast_pos.mpr (by omega)
  have hnonneg : 0 ≤ ∑ s ∈ range (x.length + bandwidth), Windows.window (deviations x) bandwidth s ^ 2 :=
    sum_nonneg fun s _ => sq_nonneg _
  refine ⟨_, bartlettLrv_eq x h1 hn, div_nonneg hnonneg (mul_pos hlength hbandwidth).le, ?_⟩
  rw [div_eq_zero_iff, or_iff_left (mul_pos hlength hbandwidth).ne', ← deviations_eq_zero,
    ← Windows.sum_window_sq_eq_zero h1, length_deviations]

end Field

section Tost
variable {K : Type*} [Field K] [LinearOrder K] [FloorRing K]

/-- What the diagnostic records of the standard error, when it returns. -/
theorem tost_se {sqrt : K → K} {x : List K} {margin : K} {r : TostResult K} (h : tost sqrt x margin = .ok r) :
    ∃ lrv, bartlettLrv x r.bandwidth = .ok lrv ∧ r.se = sqrt (lrv / x.length) ∧ r.mean = x.sum / x.length := by
  unfold tost at h
  obtain ⟨cv, -, h⟩ := Except.bind_eq_ok.mp h
  obtain ⟨lrv, hlrv, h⟩ := Except.bind_eq_ok.mp h
  cases h
  exact ⟨lrv, hlrv, rfl, rfl⟩

end Tost

/-- The long-run variance of every series at every bandwidth in range is not negative, so the root of the diagnostic is the
    root of a number that has one, and the branch without a standard error is entered by the constant series. -/
theorem bartlettLrv_nonneg :
    (∀ (x : List ℝ) (bandwidth : Nat), 1 ≤ bandwidth → bandwidth ≤ x.length →
      ∃ lrv, bartlettLrv x bandwidth = .ok lrv ∧ 0 ≤ lrv ∧ (lrv = 0 ↔ ∀ v ∈ x, v = x.sum / x.length)) ∧
    ∀ (x : List ℝ) (margin : ℝ) (r : TostResult ℝ), tost Real.sqrt x margin = .ok r →
      (∃ lrv, bartlettLrv x r.bandwidth = .ok lrv ∧ 0 ≤ lrv / x.length ∧ r.se * r.se = lrv / x.length) ∧
      0 ≤ r.se ∧ (r.se ≤ 0 ↔ ∀ v ∈ x, v = r.mean) := by
  refine ⟨fun x bandwidth h1 hn => bartlettLrv_nonneg_of_le x h1 hn, fun x margin r h => ?_⟩
  obtain ⟨lrv, hlrv, hse, hmean⟩ := tost_se h
  obtain ⟨h1, hn⟩ := bandwidth_of_ok hlrv
  obtain ⟨lrv', hlrv', hnonneg, hzero⟩ := bartlettLrv_nonneg_of_le x h1 hn
  cases hlrv.symm.trans hlrv'
  have hlength : (0 : ℝ) < x.length := Nat.cast_pos.mpr (by omega)
  have harg : 0 ≤ lrv / x.length := div_nonneg hnonneg hlength.le
  refine ⟨⟨lrv, hlrv, harg, ?_⟩, ?_, ?_⟩
  · rw [hse, Real.mul_self_sqrt harg]
  · rw [hse]
    exact Real.sqrt_nonneg _
  · rw [hse, hmean, Real.sqrt_le_iff.trans (and_iff_right le_rfl), ← hzero]
    constructor
    · intro hle
      have hdiv : lrv / x.length = 0 := le_antisymm (by simpa using hle) harg
      exact (div_eq_zero_iff.mp hdiv).resolve_right hlength.ne'
    · intro hlrv0
      simp [hlrv0]

theorem bartlettLrv_nonneg_samples :
    (∃ lrv, bartlettLrv ([1, -1] : List ℝ) 2 = .ok lrv ∧ 0 ≤ lrv) ∧
    ∃ r, tost Real.sqrt (List.replicate maxWeek (0 : ℝ)) tostMargin = .ok r ∧ 0 ≤ r.se ∧ r.se ≤ 0 := by
  constructor
  · obtain ⟨lrv, hlrv, hnonneg, -⟩ := bartlettLrv_nonneg.1 [1, -1] 2 (by decide) le_rfl
    exact ⟨lrv, hlrv, hnonneg⟩
  · obtain ⟨r, hr⟩ := tost_maxWeek Real.sqrt (x := List.replicate maxWeek (0 : ℝ)) List.length_replicate tostMargin
    obtain ⟨-, hnonneg, hconstant⟩ := bartlettLrv_nonneg.2 _ _ r hr
    obtain ⟨-, -, -, hmean⟩ := tost_se hr
    refine ⟨r, hr, hnonneg, hconstant.mpr fun v hv => ?_⟩
    rw [hmean, List.eq_of_mem_replicate hv]
    simp

end Sequential
end AsymmetricCommittee
