import Mathlib.Algebra.BigOperators.Intervals
import Mathlib.Algebra.BigOperators.Ring.Finset
import Mathlib.Algebra.Order.BigOperators.Ring.Finset
import Mathlib.Data.List.GetD
import Mathlib.Data.Nat.Dist
import Mathlib.Tactic.Ring

/-! Lagged products of a finite series and the sums over its windows of a width. The triangular weights on the lagged
    products give the sum of the squares of the windows, windows that reach over the ends included. -/

namespace Windows
open Finset

section Ring
variable {R : Type*} [CommRing R]

/-- A member of the series, zero after its end. -/
def at0 (d : List R) (k : Nat) : R := d.getD k 0

/-- The product of the series with itself at a lag. -/
def lagged (d : List R) (j : Nat) : R := (List.zipWith (· * ·) (d.drop j) d).sum

/-- The sum of the `s`-th window of a width: the series is taken to be zero before its start and after its end. -/
def window (d : List R) (width s : Nat) : R :=
  ∑ i ∈ range width, if s + i < width then 0 else at0 d (s + i - width)

theorem at0_of_length_le {d : List R} {k : Nat} (h : d.length ≤ k) : at0 d k = 0 := List.getD_eq_default d 0 h

theorem sum_zipWith (a b : List R) : (List.zipWith (· * ·) a b).sum = ∑ k ∈ range b.length, at0 a k * at0 b k := by
  induction b generalizing a with
  | nil => simp
  | cons y b ih =>
    cases a with
    | nil => simp [at0]
    | cons x a =>
      rw [List.zipWith_cons_cons, List.sum_cons, ih, List.length_cons, sum_range_succ', add_comm]
      rfl

theorem lagged_eq_sum (d : List R) (j : Nat) : lagged d j = ∑ k ∈ range d.length, at0 d k * at0 d (k + j) := by
  rw [lagged, sum_zipWith]
  refine sum_congr rfl fun k _ => ?_
  rw [mul_comm]
  simp [at0, List.getD_eq_getElem?_getD, List.getElem?_drop, add_comm]

/-- Two members of the windows a lag apart, over all windows. -/
theorem sum_window_terms (d : List R) {width i : Nat} (j : Nat) (hi : i < width) :
    ∑ s ∈ range (d.length + width), (if s + i < width then 0 else at0 d (s + i - width)) *
      (if s + (i + j) < width then 0 else at0 d (s + (i + j) - width)) = lagged d j := by
  let term (t : Nat) : R := (if t < width then 0 else at0 d (t - width)) *
    (if t + j < width then 0 else at0 d (t + j - width))
  have hshift : ∑ s ∈ range (d.length + width), term (s + i) = ∑ t ∈ Ico i (d.length + width + i), term t := by
    rw [sum_Ico_eq_sum_range, Nat.add_sub_cancel]
    exact sum_congr rfl fun s _ => by rw [add_comm]
  have hinner : ∑ t ∈ Ico width (d.length + width), term t = ∑ t ∈ Ico i (d.length + width + i), term t := by
    refine sum_subset (Ico_subset_Ico hi.le (Nat.le_add_right _ _)) fun t _ ht => ?_
    rw [mem_Ico, not_and_or] at ht
    rcases ht with ht | ht
    · simp [term, not_le.mp ht]
    · have hend : at0 d (t - width) = 0 := at0_of_length_le (by omega)
      simp [term, hend]
  have hlagged : ∑ t ∈ Ico width (d.length + width), term t = lagged d j := by
    rw [sum_Ico_eq_sum_range, Nat.add_sub_cancel, lagged_eq_sum]
    refine sum_congr rfl fun k _ => ?_
    have h1 : ¬width + k < width := by omega
    have h2 : ¬width + k + j < width := by omega
    simp only [term, h1, h2, if_false]
    congr 2 <;> omega
  rw [← hlagged, hinner, ← hshift]
  exact sum_congr rfl fun s _ => by simp only [term, add_assoc]

/-- A sum over the pairs of places in a window, by how far they are apart. -/
theorem sum_dist (c : Nat → R) (width : Nat) :
    ∑ i ∈ range width, ∑ i' ∈ range width, c (Nat.dist i i') =
      width * c 0 + 2 * ∑ j ∈ range width, ((width : R) - (j + 1)) * c (j + 1) := by
  induction width with
  | zero => simp
  | succ width ih =>
    have hlast : ∑ i ∈ range width, c (Nat.dist i width) = ∑ j ∈ range width, c (j + 1) := by
      rw [← sum_range_reflect]
      refine sum_congr rfl fun j hj => congrArg c ?_
      rw [mem_range] at hj
      rw [Nat.dist_eq_sub_of_le (by omega)]
      omega
    have hlast' : ∑ i ∈ range width, c (Nat.dist width i) = ∑ j ∈ range width, c (j + 1) := by
      rw [← hlast]
      exact sum_congr rfl fun i _ => by rw [Nat.dist_comm]
    have hrows : ∑ i ∈ range width, ∑ i' ∈ range (width + 1), c (Nat.dist i i') =
        ∑ i ∈ range width, ∑ i' ∈ range width, c (Nat.dist i i') + ∑ j ∈ range width, c (j + 1) := by
      rw [← hlast, ← sum_add_distrib]
      exact sum_congr rfl fun i _ => sum_range_succ _ _
    have hweights : ∑ j ∈ range width, (((width + 1 : Nat) : R) - (j + 1)) * c (j + 1) =
        ∑ j ∈ range width, ((width : R) - (j + 1)) * c (j + 1) + ∑ j ∈ range width, c (j + 1) := by
      rw [← sum_add_distrib]
      refine sum_congr rfl fun j _ => ?_
      push_cast
      ring
    rw [sum_range_succ, hrows, ih, sum_range_succ, hlast', Nat.dist_self, sum_range_succ, hweights]
    push_cast
    ring

/-- The squares of the windows are the lagged products under triangular weights. -/
theorem sum_window_sq (d : List R) (width : Nat) :
    ∑ s ∈ range (d.length + width), window d width s ^ 2 =
      width * lagged d 0 + 2 * ∑ j ∈ range width, ((width : R) - (j + 1)) * lagged d (j + 1) := by
  have hpair : ∀ {i i'}, i ≤ i' → i < width → ∑ s ∈ range (d.length + width),
      (if s + i < width then 0 else at0 d (s + i - width)) *
      (if s + i' < width then 0 else at0 d (s + i' - width)) = lagged d (Nat.dist i i') := by
    intro i i' hle hi
    obtain ⟨j, rfl⟩ := Nat.exists_eq_add_of_le hle
    rw [sum_window_terms d j hi, Nat.dist_eq_sub_of_le hle, Nat.add_sub_cancel_left]
  rw [← sum_dist]
  simp only [window, sq, sum_mul_sum]
  rw [sum_comm]
  refine sum_congr rfl fun i hi => ?_
  rw [sum_comm]
  refine sum_congr rfl fun i' hi' => ?_
  rcases Nat.le_total i i' with hle | hle
  · exact hpair hle (mem_range.mp hi)
  · rw [Nat.dist_comm, ← hpair hle (mem_range.mp hi')]
    exact sum_congr rfl fun s _ => mul_comm _ _

/-- A window ends with a member of the series and reaches back over earlier ones. -/
theorem window_eq_of_earlier {d : List R} {width k : Nat} (hwidth : 1 ≤ width) (h : ∀ k' < k, at0 d k' = 0) :
    window d width (k + 1) = at0 d k := by
  obtain ⟨width, rfl⟩ := Nat.exists_eq_add_of_le' hwidth
  rw [window, sum_range_succ, sum_eq_zero, zero_add]
  · have h1 : ¬k + 1 + width < width + 1 := by omega
    rw [if_neg h1]
    congr 1
    omega
  · intro i hi
    rw [mem_range] at hi
    split
    · rfl
    · exact h _ (by omega)

end Ring

section Ordered
variable {R : Type*} [CommRing R] [LinearOrder R] [IsStrictOrderedRing R]

/-- The windows are all zero on the zero series only. -/
theorem sum_window_sq_eq_zero {d : List R} {width : Nat} (hwidth : 1 ≤ width) :
    ∑ s ∈ range (d.length + width), window d width s ^ 2 = 0 ↔ ∀ v ∈ d, v = 0 := by
  rw [sum_eq_zero_iff_of_nonneg fun s _ => sq_nonneg _]
  constructor
  · intro h
    have hzero : ∀ k, at0 d k = 0 := by
      intro k
      induction k using Nat.strong_induction_on with
      | _ k ih =>
        rcases lt_or_ge k d.length with hk | hk
        · rw [← window_eq_of_earlier hwidth ih]
          exact pow_eq_zero_iff two_ne_zero |>.mp (h (k + 1) (mem_range.mpr (by omega)))
        · exact at0_of_length_le hk
    intro v hv
    obtain ⟨k, hk, rfl⟩ := List.getElem_of_mem hv
    rw [← hzero k, at0, List.getD_eq_getElem d 0 hk]
  · intro h s _
    have hzero : ∀ k, at0 d k = 0 := by
      intro k
      rcases lt_or_ge k d.length with hk | hk
      · rw [at0, List.getD_eq_getElem d 0 hk]
        exact h _ (List.getElem_mem hk)
      · exact at0_of_length_le hk
    simp [window, hzero]

end Ordered
end Windows
