import Mathlib.Algebra.BigOperators.Intervals
import Mathlib.Algebra.Order.Field.Basic

/-! The aGRAPA bets against a null mean `m` on a sequence in the unit interval: the mean and the variance are regularised
    by one observation at the null, the bet approximates the one of the best growth and is truncated at `c / m`. -/

namespace Agrapa
open Finset

variable {K : Type*} [Field K] (m c : K) (x : Nat → K)

/-- The regularised mean of the first `t` observations. -/
def mean (t : Nat) : K := (m + ∑ i ∈ range t, x i) / (t + 1)

/-- Their squared deviations, each from the mean up to it. -/
def deviation (t : Nat) : K := ∑ i ∈ range t, (x i - mean m x (i + 1)) ^ 2

/-- The regularised variance; a coin at the null has variance `m (1 - m)`. -/
def variance (t : Nat) : K := (m * (1 - m) + deviation m x t) / (t + 1)

theorem deviation_succ (t : Nat) : deviation m x (t + 1) = deviation m x t + (x t - mean m x (t + 1)) ^ 2 :=
  sum_range_succ _ _

variable [LinearOrder K]

/-- The bet on the next observation, one-sided. -/
def bet (t : Nat) : K :=
  max 0 (min (c / m) ((mean m x t - m) / (variance m x t + (mean m x t - m) ^ 2)))

/-- The wealth after `t` observations. -/
def wealth (t : Nat) : K := ∏ i ∈ range t, (1 + bet m c x i * (x i - m))

theorem wealth_zero : wealth m c x 0 = 1 := prod_range_zero _

theorem wealth_succ (t : Nat) : wealth m c x (t + 1) = wealth m c x t * (1 + bet m c x t * (x t - m)) :=
  prod_range_succ _ _

end Agrapa
