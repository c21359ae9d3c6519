import AsymmetricCommittee.Theorems.SequentialRule
import AsymmetricCommittee.Lib.FiniteProcess
import Mathlib.Data.Fintype.BigOperators

/-! Anytime-valid error control of the sequential test. Each of its three betting processes is a wealth that
    bets a predictable fraction of itself, so Ville's inequality bounds the probability that it ever
    reaches the threshold; a PASS needs both primary processes there, a FAIL the mirrored one. -/

namespace AsymmetricCommittee
namespace Sequential
open FiniteProcess

/-! ### The betting processes are wealths -/

section Wealth
variable {K : Type*} [Field K] [LinearOrder K] [IsStrictOrderedRing K]

def spyWealth : Wealth (fun x : K × K => clip x.1) where
  wealth h := (spyState h).wealth
  bet h := nextLambda (spyState h)
  wealth_nonneg h := (spyState_positive h).wealth.le
  bet_nonneg h := nextLambda_nonneg _
  wealth_append h x := by rw [spyState_append, book_wealth]

def quantWealth : Wealth (fun x : K × K => clip x.2) where
  wealth h := (quantState h).wealth
  bet h := nextLambda (quantState h)
  wealth_nonneg h := (quantState_positive h).wealth.le
  bet_nonneg h := nextLambda_nonneg _
  wealth_append h x := by rw [quantState_append, book_wealth]

def mirrorWealth : Wealth (fun x : K × K => -clip x.2) where
  wealth h := (mirrorState h).wealth
  bet h := nextLambda (mirrorState h)
  wealth_nonneg h := (mirrorState_positive h).wealth.le
  bet_nonneg h := nextLambda_nonneg _
  wealth_append h x := by rw [mirrorState_append, book_wealth]

end Wealth

/-! ### What a report says about the wealths -/

section Report
variable {K : Type*} [Field K] [LinearOrder K]

theorem referenceDecision_pass {series : List (K × K)} (h : (referenceDecision series).status = .pass) :
    ∃ w ≤ series.length, PassAt series w := by
  unfold referenceDecision at h
  split at h
  · rename_i w hw
    refine ⟨w, (firstCrossing_eq_some.mp hw).1.2.2.1, ?_⟩
    unfold decideAt at h
    split_ifs at h with hboth hpass
    exact hpass
  · split at h <;> cases h

theorem referenceDecision_fail {series : List (K × K)} (h : (referenceDecision series).status = .fail) :
    ∃ w ≤ series.length, FailAt series w := by
  unfold referenceDecision at h
  split at h
  · rename_i w hw
    obtain ⟨-, -, hlen, hcross⟩ := (firstCrossing_eq_some.mp hw).1
    refine ⟨w, hlen, ?_⟩
    unfold decideAt at h
    split_ifs at h with hboth hpass
    exact hcross.resolve_left hpass
  · split at h <;> cases h

variable [FloorRing K]

/-- The test fed with a series reports a status. -/
def reports (sqrt : K → K) (status : SequentialStatus) (series : List (K × K)) : Bool :=
  match SequentialTest.start.observeAll sqrt (finiteSeries series) with
  | .ok t => t.status == status
  | .error _ => false

variable [IsStrictOrderedRing K]

theorem reports_decision {sqrt : K → K} {status : SequentialStatus} {series : List (K × K)}
    (h : reports sqrt status series = true) : (referenceDecision series).status = status := by
  unfold reports at h
  split at h
  · rename_i t hrun
    by_cases hfed : FedAfterClose series
    · rw [(observeAll_tracks sqrt series).1 hfed] at hrun
      cases hrun
    · obtain ⟨t', hrun', ht'⟩ := (observeAll_tracks sqrt series).2 hfed
      rw [hrun] at hrun'
      cases hrun'
      rw [← ht'.decision]
      exact beq_iff_eq.mp h
  · cases h

end Report

/-! ### Error control -/

section Control
variable {Ω K : Type*} [Fintype Ω] [Field K] [LinearOrder K] [FloorRing K] {X : ℕ → Ω → K × K} {n : ℕ}

/-- The test, fed week after week with a path of at most `n` weeks, at some week reports the status. -/
def EverReports (sqrt : K → K) (X : ℕ → Ω → K × K) (n : ℕ) (status : SequentialStatus) (ω : Ω) : Prop :=
  ∃ k ∈ List.range (n + 1), reports sqrt status (past X k ω) = true

instance (sqrt : K → K) (status : SequentialStatus) : DecidablePred (EverReports sqrt X n status) :=
  fun _ => inferInstanceAs (Decidable (∃ k ∈ List.range (n + 1), _))

variable [IsStrictOrderedRing K]

omit [Fintype Ω] in
theorem everReports_pass {sqrt : K → K} {ω : Ω} (h : EverReports sqrt X n .pass ω) :
    Hit spyWealth.wealth eThreshold (past X n ω) ∧ Hit quantWealth.wealth eThreshold (past X n ω) := by
  obtain ⟨k, hk, hrep⟩ := h
  obtain ⟨w, hw, hspy, hquant⟩ := referenceDecision_pass (reports_decision hrep)
  have hkn : k ≤ n := Nat.lt_succ_iff.mp (List.mem_range.mp hk)
  rw [length_past] at hw
  rw [take_past X hw] at hspy hquant
  have hwn : w ≤ (past X n ω).length := by
    rw [length_past]
    exact hw.trans hkn
  constructor
  · refine ⟨w, hwn, ?_⟩
    rwa [take_past X (hw.trans hkn)]
  · refine ⟨w, hwn, ?_⟩
    rwa [take_past X (hw.trans hkn)]

omit [Fintype Ω] in
theorem everReports_fail {sqrt : K → K} {ω : Ω} (h : EverReports sqrt X n .fail ω) :
    Hit mirrorWealth.wealth eThreshold (past X n ω) := by
  obtain ⟨k, hk, hrep⟩ := h
  obtain ⟨w, hw, hfail⟩ := referenceDecision_fail (reports_decision hrep)
  have hkn : k ≤ n := Nat.lt_succ_iff.mp (List.mem_range.mp hk)
  rw [length_past] at hw
  rw [FailAt, take_past X hw] at hfail
  refine ⟨w, ?_, ?_⟩
  · rw [length_past]
    exact hw.trans hkn
  · rwa [take_past X (hw.trans hkn)]

theorem eThreshold_pos : (0 : K) < eThreshold := by
  unfold eThreshold
  norm_num

/-- A wealth that starts at 1 reaches the threshold with probability at most `ALPHA`. -/
theorem prob_hit_le_alpha (P : FiniteProcess.Probability Ω K) {g : K × K → K} (W : Wealth g) (hstart : W.wealth [] = 1)
    (hg : ∀ t < n, ∀ h, condExp P X t g h ≤ 0) :
    P.prob (fun ω => Hit W.wealth eThreshold (past X n ω)) ≤ alpha := by
  refine (ville W eThreshold_pos hg).trans ?_
  rw [hstart]
  unfold eThreshold alpha
  norm_num

/-- Anytime-valid error control over every finite-support process of weekly pairs. -/
theorem sequentialTest_error_control (sqrt : K → K) (P : FiniteProcess.Probability Ω K) (X : ℕ → Ω → K × K) (n : ℕ) :
    ((∀ t < n, ∀ h, condExp P X t (fun x => clip x.1) h ≤ 0) ∨
        (∀ t < n, ∀ h, condExp P X t (fun x => clip x.2) h ≤ 0) →
      P.prob (EverReports sqrt X n .pass) ≤ 1 / 20) ∧
    ((∀ t < n, ∀ h, 0 ≤ condExp P X t (fun x => clip x.2) h) →
      P.prob (EverReports sqrt X n .fail) ≤ 1 / 20) := by
  have halpha : (alpha : K) = 1 / 20 := by
    unfold alpha
    norm_num
  rw [← halpha]
  constructor
  · rintro (hspy | hquant)
    · refine (P.prob_mono fun ω hω => ?_).trans (prob_hit_le_alpha P spyWealth rfl hspy)
      exact (everReports_pass hω).1
    · refine (P.prob_mono fun ω hω => ?_).trans (prob_hit_le_alpha P quantWealth rfl hquant)
      exact (everReports_pass hω).2
  · intro hquant
    have hmirror : ∀ t < n, ∀ h, condExp P X t (fun x => -clip x.2) h ≤ 0 := fun t ht h => by
      rw [condExp_neg]
      exact neg_nonpos.mpr (hquant t ht h)
    refine (P.prob_mono fun ω hω => ?_).trans (prob_hit_le_alpha P mirrorWealth rfl hmirror)
    exact everReports_fail hω

end Control

/-! ### A fair first week -/

/-- A fair coin. -/
def coin : FiniteProcess.Probability Bool ℚ where
  weight _ := 1 / 2
  nonneg _ := by norm_num
  sum_one := by decide +kernel

/-- The coin decides the first week versus SPY; every other excess is zero. -/
def coinWeeks (t : ℕ) (ω : Bool) : ℚ × ℚ := if t = 0 then (if ω then 1 / 20 else -1 / 20, 0) else (0, 0)

theorem coin_spy_fair (t : ℕ) (h : List (ℚ × ℚ)) : condExp coin coinWeeks t (fun x => clip x.1) h = 0 := by
  have hzero : clip (0 : ℚ) = 0 := by decide +kernel
  cases t with
  | zero =>
    by_cases hh : [] = h
    · subst hh
      decide +kernel
    · simp [condExp, hh]
  | succ t => simp [condExp, coinWeeks, hzero]

theorem coin_quant_fair (t : ℕ) (h : List (ℚ × ℚ)) : condExp coin coinWeeks t (fun x => clip x.2) h = 0 := by
  have hzero : clip (0 : ℚ) = 0 := by decide +kernel
  have hquant : ∀ ω, (coinWeeks t ω).2 = 0 := fun ω => by
    unfold coinWeeks
    split <;> rfl
  simp [condExp, hquant, hzero]

theorem sequentialTest_error_control_coin :
    coin.prob (EverReports (fun x => x) coinWeeks 30 .pass) ≤ 1 / 20 ∧
      coin.prob (EverReports (fun x => x) coinWeeks 30 .fail) ≤ 1 / 20 := by
  obtain ⟨hpass, hfail⟩ := sequentialTest_error_control (fun x : ℚ => x) coin coinWeeks 30
  exact ⟨hpass (Or.inl fun t _ h => (coin_spy_fair t h).le), hfail fun t _ h => (coin_quant_fair t h).ge⟩

end Sequential
end AsymmetricCommittee
