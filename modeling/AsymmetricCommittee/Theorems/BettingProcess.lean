import AsymmetricCommittee.Evaluation.Sequential
import Mathlib.Tactic.NormNum
import Mathlib.Tactic.Linarith
import Mathlib.Tactic.Positivity

/-! The three betting processes of the sequential test. A clipped excess is a legal bet, so booking one
    never raises; the bet is in `[0, 1/2]`, so no week more than halves a wealth; the variance stays
    positive, so the division of `nextLambda` is never by zero. -/

namespace AsymmetricCommittee
namespace Sequential

variable {K : Type*} [Field K] [LinearOrder K]

/-- The betting variable of a finite excess. -/
def clip (x : K) : K := max (-cX) (min cX x) / cX

@[simp] theorem clippedY_finite (x : K) : clippedY (.finite x) cX = .ok (clip x) := rfl

/-- The e-process versus SPY after the weeks of a series. -/
def spyState (series : List (K × K)) : BettingState K :=
  series.foldl (fun s x => s.book (clip x.1)) .start

def quantState (series : List (K × K)) : BettingState K :=
  series.foldl (fun s x => s.book (clip x.2)) .start

def mirrorState (series : List (K × K)) : BettingState K :=
  series.foldl (fun s x => s.book (-clip x.2)) .start

@[simp] theorem spyState_append (series : List (K × K)) (x : K × K) :
    spyState (series ++ [x]) = (spyState series).book (clip x.1) := by
  simp [spyState]

@[simp] theorem quantState_append (series : List (K × K)) (x : K × K) :
    quantState (series ++ [x]) = (quantState series).book (clip x.2) := by
  simp [quantState]

@[simp] theorem mirrorState_append (series : List (K × K)) (x : K × K) :
    mirrorState (series ++ [x]) = (mirrorState series).book (-clip x.2) := by
  simp [mirrorState]

@[simp] theorem book_wealth (s : BettingState K) (y : K) :
    (s.book y).wealth = s.wealth * (1 + nextLambda s * y) := rfl

theorem nextLambda_nonneg (s : BettingState K) : 0 ≤ nextLambda s := le_max_left _ _

omit [LinearOrder K] in
theorem bartlettLrv_of_le (x : List K) {bandwidth : Nat} (h1 : 1 ≤ bandwidth) (hn : bandwidth ≤ x.length) :
    ∃ lrv, bartlettLrv x bandwidth = .ok lrv :=
  ⟨_, if_neg (by omega)⟩

variable [IsStrictOrderedRing K]

/-! ### Clipped excesses -/

theorem cX_pos : (0 : K) < cX := by
  unfold cX
  norm_num

theorem clip_le_one (x : K) : clip x ≤ 1 := by
  rw [clip, div_le_one cX_pos]
  exact max_le ((neg_nonpos.mpr cX_pos.le).trans cX_pos.le) (min_le_left _ _)

theorem neg_one_le_clip (x : K) : -1 ≤ clip x := by
  rw [clip, le_div_iff₀ cX_pos, neg_one_mul]
  exact le_max_left _ _

theorem bet_clip (s : BettingState K) (x : K) : bet s (clip x) = .ok (s.book (clip x)) :=
  if_pos ⟨neg_one_le_clip x, clip_le_one x⟩

theorem bet_neg_clip (s : BettingState K) (x : K) : bet s (-clip x) = .ok (s.book (-clip x)) :=
  if_pos ⟨neg_le_neg (clip_le_one x), neg_le.mp (neg_one_le_clip x)⟩

/-! ### The bet and the wealth -/

theorem nextLambda_le_half (s : BettingState K) : nextLambda s ≤ 1 / 2 := by
  have hcap : (lambdaCap : K) = 1 / 2 := by
    unfold lambdaCap
    norm_num
  refine max_le (by norm_num) ?_
  exact (min_le_left _ _).trans hcap.le

/-- At a bet of at most a half, the factor of a week is positive whatever the week brings. -/
theorem betFactor_pos (s : BettingState K) {y : K} (hy : -1 ≤ y) : 0 < 1 + nextLambda s * y := by
  have h0 := nextLambda_nonneg s
  have h1 := nextLambda_le_half s
  have hlow : nextLambda s * -1 ≤ nextLambda s * y := mul_le_mul_of_nonneg_left hy h0
  linarith

/-- What every state of an e-process keeps: its wealth and its variance are positive. -/
structure BettingState.Positive (s : BettingState K) : Prop where
  wealth : 0 < s.wealth
  sumSqDev : 0 ≤ s.sumSqDev
  var : 0 < s.var

theorem start_positive : (BettingState.start : BettingState K).Positive :=
  ⟨one_pos, le_rfl, one_pos⟩

theorem BettingState.Positive.book {s : BettingState K} (h : s.Positive) {y : K} (hy : -1 ≤ y) :
    (s.book y).Positive := by
  have hsq : 0 ≤ (s.book y).sumSqDev := add_nonneg h.sumSqDev (sq_nonneg _)
  refine ⟨mul_pos h.wealth (betFactor_pos s hy), hsq, ?_⟩
  show 0 < (1 + (s.book y).sumSqDev) / (((s.t + 1 : Nat) : K) + 1)
  positivity

/-- The divisor of `nextLambda` is positive in every state an e-process reaches. -/
theorem BettingState.Positive.divisor_pos {s : BettingState K} (h : s.Positive) :
    0 < s.var + s.mu * s.mu := by
  have := h.var
  have := mul_self_nonneg s.mu
  linarith

theorem foldl_book_positive {y : K × K → K} (hy : ∀ x, -1 ≤ y x) (series : List (K × K)) :
    (series.foldl (fun s x => s.book (y x)) (BettingState.start : BettingState K)).Positive := by
  induction series using List.reverseRecOn with
  | nil => exact start_positive
  | append_singleton series x ih =>
    rw [List.foldl_append]
    exact ih.book (hy x)

theorem spyState_positive (series : List (K × K)) : (spyState series).Positive :=
  foldl_book_positive (fun x => neg_one_le_clip x.1) series

theorem quantState_positive (series : List (K × K)) : (quantState series).Positive :=
  foldl_book_positive (fun x => neg_one_le_clip x.2) series

theorem mirrorState_positive (series : List (K × K)) : (mirrorState series).Positive :=
  foldl_book_positive (fun x => neg_le_neg (clip_le_one x.2)) series

/-! ### The diagnostic at the end of the window -/

section Tost
variable [FloorRing K]

theorem hacLag_maxWeek : hacLag maxWeek = 4 := by decide +kernel

theorem kvBartlettCv95_maxWeek : ∃ cv : K, kvBartlettCv95 ((hacLag maxWeek : K) / (maxWeek : Nat)) = .ok cv := by
  have hrange : kvStep - 1e-12 ≤ ((hacLag maxWeek : Nat) : K) / (maxWeek : Nat) ∧
      ((hacLag maxWeek : Nat) : K) / (maxWeek : Nat) ≤ 1 + 1e-12 := by
    rw [hacLag_maxWeek]
    unfold kvStep maxWeek
    norm_num
  exact ⟨_, if_neg (not_not_intro hrange)⟩

/-- The diagnostic never raises on the 104 weeks of a full window. -/
theorem tost_maxWeek (sqrt : K → K) {x : List K} (hx : x.length = maxWeek) (margin : K) :
    ∃ r, tost sqrt x margin = .ok r := by
  obtain ⟨cv, hcv⟩ := kvBartlettCv95_maxWeek (K := K)
  obtain ⟨lrv, hlrv⟩ := bartlettLrv_of_le x (show 1 ≤ hacLag maxWeek by rw [hacLag_maxWeek]; decide)
    (by rw [hacLag_maxWeek, hx]; decide)
  unfold tost
  simp only [hx, hcv, hlrv, bind, Except.bind, pure, Except.pure]
  exact ⟨_, rfl⟩

end Tost

end Sequential
end AsymmetricCommittee
