import AsymmetricCommittee.Lib.Agrapa
import AsymmetricCommittee.Lib.Except
import AsymmetricCommittee.Theorems.SequentialRule
import Mathlib.Tactic.FieldSimp
import Mathlib.Tactic.LinearCombination

/-! The moments of a betting process. Under `x = (y + 1) / 2` they are the regularised moments of the published rule, so
    that the bets and the wealth are its own; a process fed with the opposite weeks has the opposite mean and the same
    variance, so that the two never bet at once. -/

namespace AsymmetricCommittee
namespace Sequential

variable {K : Type*} [Field K] [LinearOrder K]

/-- A week's variable is legal. -/
def LegalY (y : K) : Prop := -1 ≤ y ∧ y ≤ 1

/-- The state after weeks that are booked one after the other. -/
def booked (ys : List K) : BettingState K := ys.foldl BettingState.book .start

@[simp] theorem booked_nil : booked ([] : List K) = .start := rfl

@[simp] theorem booked_append (ys : List K) (y : K) : booked (ys ++ [y]) = (booked ys).book y := by
  simp [booked]

@[simp] theorem booked_t (ys : List K) : (booked ys).t = ys.length := by
  induction ys using List.reverseRecOn with
  | nil => rfl
  | append_singleton ys y ih =>
    rw [booked_append, List.length_append, List.length_singleton, ← ih]
    rfl

theorem foldlM_bet {s : BettingState K} {ys : List K} (h : ∀ y ∈ ys, LegalY y) :
    ys.foldlM bet s = .ok (ys.foldl BettingState.book s) := by
  induction ys generalizing s with
  | nil => rfl
  | cons y ys ih =>
    rcases List.forall_mem_cons.mp h with ⟨hy, hys⟩
    have hbet : bet s y = .ok (s.book y) := if_pos hy
    rw [List.foldlM_cons, hbet]
    exact ih hys

theorem run_bet {ys : List K} (h : ∀ y ∈ ys, LegalY y) : ys.foldlM bet BettingState.start = .ok (booked ys) := foldlM_bet h

/-! ### The published rule -/

/-- A state is the published rule's after its first weeks: `y = 2 x - 1`, so means carry over so, and variances fourfold. -/
structure Publishes (x : Nat → K) (t : Nat) (s : BettingState K) : Prop where
  weeks : s.t = t
  sumY : s.sumY = 2 * (∑ i ∈ Finset.range t, x i) - t
  mu : s.mu = 2 * Agrapa.mean (1 / 2) x t - 1
  sumSqDev : s.sumSqDev = 4 * Agrapa.deviation (1 / 2) x t
  var : s.var = 4 * Agrapa.variance (1 / 2) x t
  wealth : s.wealth = Agrapa.wealth (1 / 2) (1 / 2) x t

variable [IsStrictOrderedRing K]

theorem publishes_start (x : Nat → K) : Publishes x 0 .start where
  weeks := rfl
  sumY := by simp [BettingState.start]
  mu := by simp [BettingState.start, Agrapa.mean]
  sumSqDev := by simp [BettingState.start, Agrapa.deviation]
  var := by
    simp only [BettingState.start, Agrapa.variance, Agrapa.deviation, Finset.sum_range_zero]
    norm_num
  wealth := (Agrapa.wealth_zero _ _ _).symm

/-- The published bet is twice the bet of the state. -/
theorem Publishes.bet {x : Nat → K} {t : Nat} {s : BettingState K} (h : Publishes x t s) :
    Agrapa.bet (1 / 2) (1 / 2) x t = 2 * nextLambda s := by
  have hcap : (lambdaCap : K) = 1 / 2 := by
    unfold lambdaCap
    norm_num
  have hratio : (Agrapa.mean (1 / 2) x t - 1 / 2) / (Agrapa.variance (1 / 2) x t + (Agrapa.mean (1 / 2) x t - 1 / 2) ^ 2) =
      2 * (s.mu / (s.var + s.mu * s.mu)) := by
    have hdivisor : s.var + s.mu * s.mu =
        4 * (Agrapa.variance (1 / 2) x t + (Agrapa.mean (1 / 2) x t - 1 / 2) ^ 2) := by
      rw [h.mu, h.var]
      ring
    have hmean : s.mu = 2 * (Agrapa.mean (1 / 2) x t - 1 / 2) := by
      rw [h.mu]
      ring
    rw [hdivisor, hmean, mul_div_mul_comm, ← mul_assoc]
    norm_num
  have htwo : (1 / 2 : K) / (1 / 2) = 2 * (1 / 2) := by norm_num
  rw [Agrapa.bet, nextLambda, hratio, hcap, htwo, mul_max_of_nonneg _ _ zero_le_two, mul_zero,
    mul_min_of_nonneg _ _ zero_le_two]

/-- A week keeps it. -/
theorem Publishes.book {x : Nat → K} {t : Nat} {s : BettingState K} (h : Publishes x t s) {y : K}
    (hy : x t = (y + 1) / 2) : Publishes x (t + 1) (s.book y) := by
  have hpos : ((t + 1 : Nat) : K) + 1 ≠ 0 := by positivity
  have hweeks : (s.book y).t = t + 1 := congrArg (· + 1) h.weeks
  have hsum : (s.book y).sumY = 2 * (∑ i ∈ Finset.range (t + 1), x i) - (t + 1 : Nat) := by
    show s.sumY + y = _
    rw [h.sumY, Finset.sum_range_succ, hy]
    push_cast
    ring
  have hmu : (s.book y).mu = 2 * Agrapa.mean (1 / 2) x (t + 1) - 1 := by
    show (s.book y).sumY / (((s.book y).t : K) + 1) = _
    rw [hsum, hweeks, Agrapa.mean]
    field_simp
    ring
  have hdev : (s.book y).sumSqDev = 4 * Agrapa.deviation (1 / 2) x (t + 1) := by
    show s.sumSqDev + (y - (s.book y).mu) ^ 2 = _
    rw [h.sumSqDev, hmu, Agrapa.deviation_succ, hy]
    ring
  refine ⟨hweeks, hsum, hmu, hdev, ?_, ?_⟩
  · show (1 + (s.book y).sumSqDev) / (((s.book y).t : K) + 1) = _
    rw [hdev, hweeks, Agrapa.variance]
    field_simp
    ring
  · rw [book_wealth, h.wealth, Agrapa.wealth_succ, h.bet, hy]
    ring

/-- The first weeks of a sequence. -/
abbrev weeks (y : Nat → K) (t : Nat) : List K := (List.range t).map y

theorem publishes_booked {x y : Nat → K} (hx : ∀ i, x i = (y i + 1) / 2) (t : Nat) : Publishes x t (booked (weeks y t)) := by
  induction t with
  | zero => exact publishes_start x
  | succ t ih =>
    rw [weeks, List.range_succ, List.map_append, List.map_singleton, booked_append]
    exact ih.book (hx t)

omit [IsStrictOrderedRing K] in
theorem legal_weeks {y : Nat → K} (h : ∀ i, LegalY (y i)) (t : Nat) : ∀ v ∈ weeks y t, LegalY v := by
  intro v hv
  obtain ⟨i, -, rfl⟩ := List.mem_map.mp hv
  exact h i

/-- On every sequence of legal weeks the wealth is the published rule's on `x = (y + 1) / 2` against the mean `1 / 2`, week
    by week, and the published bet is twice the bet in `y`. -/
theorem bet_published (y : Nat → K) (hy : ∀ i, -1 ≤ y i ∧ y i ≤ 1) (t : Nat) :
    (0 ≤ (y t + 1) / 2 ∧ (y t + 1) / 2 ≤ 1) ∧
    ∃ s, (weeks y t).foldlM bet BettingState.start = .ok s ∧ s.t = t ∧
      s.wealth = Agrapa.wealth (1 / 2) (1 / 2) (fun i => (y i + 1) / 2) t ∧
      Agrapa.bet (1 / 2) (1 / 2) (fun i => (y i + 1) / 2) t = 2 * nextLambda s := by
  refine ⟨?_, booked (weeks y t), run_bet (legal_weeks hy t), ?_⟩
  · obtain ⟨hlow, hhigh⟩ := hy t
    constructor
    · linarith
    · linarith
  · have h := publishes_booked (y := y) (fun _ => rfl) t
    exact ⟨h.weeks, h.wealth, h.bet⟩

/-- A good week, then a bad one. -/
theorem bet_published_two :
    ∃ s, (weeks (fun i => if i = 0 then (1 : ℚ) else -1) 2).foldlM bet BettingState.start = .ok s ∧ s.t = 2 ∧
      s.wealth = Agrapa.wealth (1 / 2) (1 / 2) (fun i => ((if i = 0 then (1 : ℚ) else -1) + 1) / 2) 2 := by
  obtain ⟨-, s, hrun, ht, hwealth, -⟩ := bet_published (fun i => if i = 0 then (1 : ℚ) else -1)
    (fun i => by split <;> norm_num) 2
  exact ⟨s, hrun, ht, hwealth⟩

/-! ### The range of a state, and its mirror -/

/-- What holds of the state after every week. -/
structure InRange (s : BettingState K) : Prop where
  wealth_pos : 0 < s.wealth
  wealth_ge : (1 / 2) ^ s.t ≤ s.wealth
  bet_nonneg : 0 ≤ nextLambda s
  bet_le : nextLambda s ≤ 1 / 2
  divisor_pos : 0 < s.var + s.mu * s.mu

/-- The opposite process: the means are opposite, the variances equal, and no more than one of them bets. -/
structure Mirrors (s s' : BettingState K) : Prop where
  mu : s'.mu = -s.mu
  var : s'.var = s.var
  one_bet : nextLambda s = 0 ∨ nextLambda s' = 0

/-- No week more than halves the wealth. -/
theorem wealth_ge_book {s : BettingState K} (hs : s.Positive) (h : (1 / 2) ^ s.t ≤ s.wealth) {y : K} (hy : -1 ≤ y) :
    (1 / 2) ^ (s.book y).t ≤ (s.book y).wealth := by
  have hhalf : 1 / 2 ≤ 1 + nextLambda s * y := by
    have hbet := nextLambda_le_half s
    have hlow : nextLambda s * -1 ≤ nextLambda s * y := mul_le_mul_of_nonneg_left hy (nextLambda_nonneg s)
    linarith
  show (1 / 2) ^ (s.t + 1) ≤ s.wealth * (1 + nextLambda s * y)
  rw [pow_succ]
  exact mul_le_mul h hhalf (by norm_num) hs.wealth.le

theorem booked_wealth {ys : List K} (h : ∀ y ∈ ys, LegalY y) :
    (booked ys).Positive ∧ (1 / 2) ^ (booked ys).t ≤ (booked ys).wealth := by
  induction ys using List.reverseRecOn with
  | nil =>
    refine ⟨start_positive, ?_⟩
    simp [BettingState.start]
  | append_singleton ys y ih =>
    have hy : LegalY y := h y (by simp)
    obtain ⟨hpos, hge⟩ := ih fun v hv => h v (by simp [hv])
    rw [booked_append]
    exact ⟨hpos.book hy.1, wealth_ge_book hpos hge hy.1⟩

theorem booked_inRange {ys : List K} (h : ∀ y ∈ ys, LegalY y) : InRange (booked ys) where
  wealth_pos := (booked_wealth h).1.wealth
  wealth_ge := (booked_wealth h).2
  bet_nonneg := nextLambda_nonneg _
  bet_le := nextLambda_le_half _
  divisor_pos := (booked_wealth h).1.divisor_pos

/-- What a process and the one fed with the opposite weeks keep of each other. -/
structure Opposed (s s' : BettingState K) : Prop where
  t : s'.t = s.t
  sumY : s'.sumY = -s.sumY
  sumSqDev : s'.sumSqDev = s.sumSqDev
  mu : s'.mu = -s.mu
  var : s'.var = s.var

omit [LinearOrder K] [IsStrictOrderedRing K] in
theorem opposed_start : Opposed (BettingState.start : BettingState K) .start :=
  ⟨rfl, neg_zero.symm, rfl, neg_zero.symm, rfl⟩

omit [IsStrictOrderedRing K] in
/-- The deviation from the opposite mean is the opposite deviation. -/
theorem Opposed.book {s s' : BettingState K} (h : Opposed s s') (y : K) : Opposed (s.book y) (s'.book (-y)) := by
  have ht : (s'.book (-y)).t = (s.book y).t := congrArg (· + 1) h.t
  have hsum : (s'.book (-y)).sumY = -(s.book y).sumY := by
    show s'.sumY + -y = -(s.sumY + y)
    rw [h.sumY]
    ring
  have hmu : (s'.book (-y)).mu = -(s.book y).mu := by
    show (s'.book (-y)).sumY / (((s'.book (-y)).t : K) + 1) = -((s.book y).sumY / (((s.book y).t : K) + 1))
    rw [hsum, ht, neg_div]
  have hdev : (s'.book (-y)).sumSqDev = (s.book y).sumSqDev := by
    show s'.sumSqDev + (-y - (s'.book (-y)).mu) ^ 2 = s.sumSqDev + (y - (s.book y).mu) ^ 2
    rw [h.sumSqDev, hmu]
    ring
  refine ⟨ht, hsum, hdev, hmu, ?_⟩
  show (1 + (s'.book (-y)).sumSqDev) / (((s'.book (-y)).t : K) + 1) = (1 + (s.book y).sumSqDev) / (((s.book y).t : K) + 1)
  rw [hdev, ht]

omit [IsStrictOrderedRing K] in
theorem opposed_booked (ys : List K) : Opposed (booked ys) (booked (ys.map fun y => -y)) := by
  induction ys using List.reverseRecOn with
  | nil => exact opposed_start
  | append_singleton ys y ih =>
    rw [List.map_append, List.map_singleton, booked_append, booked_append]
    exact ih.book y

/-- Against a mean at or under zero there is no bet. -/
theorem nextLambda_eq_zero {s : BettingState K} (h : 0 < s.var + s.mu * s.mu) (hmu : s.mu ≤ 0) : nextLambda s = 0 :=
  max_eq_left ((min_le_right _ _).trans (div_nonpos_of_nonpos_of_nonneg hmu h.le))

theorem Opposed.mirrors {s s' : BettingState K} (h : Opposed s s') (hs : 0 < s.var + s.mu * s.mu)
    (hs' : 0 < s'.var + s'.mu * s'.mu) : Mirrors s s' := by
  refine ⟨h.mu, h.var, ?_⟩
  rcases le_total s.mu 0 with hmu | hmu
  · exact Or.inl (nextLambda_eq_zero hs hmu)
  · refine Or.inr (nextLambda_eq_zero hs' ?_)
    rw [h.mu]
    exact neg_nonpos.mpr hmu

/-! ### The states of the test -/

section Test
variable [FloorRing K] {sqrt : K → K} {test test' : SequentialTest K}

/-- A week that is taken leaves a decided test as it is, or books the three bets. -/
theorem observe_cases {x y : Extended K} (h : test.observe sqrt x y = .ok test') :
    test' = test ∨ ∃ week d diagnostic, test' = test.booked week d diagnostic := by
  by_cases hstatus : test.status = .running
  · by_cases hfinite : (∀ a, x ≠ .finite a) ∨ (∀ a, y ≠ .finite a)
    · rw [observe_nonFinite hstatus hfinite] at h
      cases h
    · push Not at hfinite
      obtain ⟨⟨a, rfl⟩, b, rfl⟩ := hfinite
      rw [observe_running hstatus (a, b)] at h
      simp only at h
      split at h
      · obtain ⟨r, -, rfl⟩ := Except.map_eq_ok.mp h
        exact Or.inr ⟨(a, b), _, _, rfl⟩
      · cases h
        exact Or.inr ⟨(a, b), _, _, rfl⟩
  · rw [observe_terminal hstatus] at h
    split at h
    · cases h
    · cases h
      exact Or.inl rfl

/-- The three processes of a test are runs over legal weeks, the mirror's over the opposite of the quant process's. -/
structure BetsLegally (test : SequentialTest K) : Prop where
  runs : ∃ spy quant : List K, (∀ y ∈ spy, LegalY y) ∧ (∀ y ∈ quant, LegalY y) ∧ test.spy = booked spy ∧
    test.quant = booked quant ∧ test.mirror = booked (quant.map fun y => -y)

omit [FloorRing K] in
theorem legal_clip (x : K) : LegalY (clip x) := ⟨neg_one_le_clip x, clip_le_one x⟩

omit [FloorRing K] in
theorem legal_neg {ys : List K} (h : ∀ y ∈ ys, LegalY y) : ∀ y ∈ ys.map (fun y => -y), LegalY y := by
  intro v hv
  obtain ⟨y, hy, rfl⟩ := List.mem_map.mp hv
  obtain ⟨hlow, hhigh⟩ := h y hy
  exact ⟨neg_le_neg hhigh, neg_le.mp hlow⟩

theorem BetsLegally.observe (h : BetsLegally test) {x y : Extended K} (hrun : test.observe sqrt x y = .ok test') :
    BetsLegally test' := by
  rcases observe_cases hrun with rfl | ⟨week, d, diagnostic, rfl⟩
  · exact h
  · obtain ⟨spy, quant, hspy, hquant, hs, hq, hm⟩ := h.runs
    refine ⟨spy ++ [clip week.1], quant ++ [clip week.2],
      List.forall_mem_append.mpr ⟨hspy, List.forall_mem_singleton.mpr (legal_clip _)⟩,
      List.forall_mem_append.mpr ⟨hquant, List.forall_mem_singleton.mpr (legal_clip _)⟩, ?_, ?_, ?_⟩
    · rw [booked_append, ← hs]
      rfl
    · rw [booked_append, ← hq]
      rfl
    · rw [List.map_append, List.map_singleton, booked_append, ← hm]
      rfl

theorem BetsLegally.observeAll (h : BetsLegally test) {series : List (Extended K × Extended K)}
    (hrun : test.observeAll sqrt series = .ok test') : BetsLegally test' := by
  induction series generalizing test with
  | nil =>
    cases hrun
    exact h
  | cons x series ih =>
    obtain ⟨middle, hfirst, hrest⟩ := Except.bind_eq_ok.mp hrun
    exact ih (h.observe hfirst) hrest

omit [IsStrictOrderedRing K] [FloorRing K] in
theorem betsLegally_start : BetsLegally (SequentialTest.start : SequentialTest K) :=
  ⟨[], [], List.forall_mem_nil _, List.forall_mem_nil _, rfl, rfl, rfl⟩

end Test

/-- After every sequence of legal weeks the state is in range, the process fed with the opposite weeks mirrors it, and so
    do the quant process and the mirror in every state of the test. -/
theorem bet_inRange_mirrors [FloorRing K] :
    (∀ ys : List K, (∀ y ∈ ys, -1 ≤ y ∧ y ≤ 1) → ∃ s s', ys.foldlM bet BettingState.start = .ok s ∧
      (ys.map fun y => -y).foldlM bet BettingState.start = .ok s' ∧ s.t = ys.length ∧ s'.t = ys.length ∧
      InRange s ∧ InRange s' ∧ Mirrors s s') ∧
    ∀ (sqrt : K → K) (series : List (Extended K × Extended K)) (test : SequentialTest K),
      SequentialTest.start.observeAll sqrt series = .ok test →
      InRange test.spy ∧ InRange test.quant ∧ InRange test.mirror ∧ Mirrors test.quant test.mirror := by
  have hmirrors : ∀ {ys : List K}, (∀ y ∈ ys, LegalY y) → Mirrors (booked ys) (booked (ys.map fun y => -y)) := by
    intro ys h
    exact (opposed_booked ys).mirrors (booked_inRange h).divisor_pos (booked_inRange (legal_neg h)).divisor_pos
  constructor
  · intro ys h
    have hneg : ∀ y ∈ ys.map (fun y => -y), LegalY y := legal_neg h
    have hlength := booked_t ys
    refine ⟨booked ys, booked (ys.map fun y => -y), run_bet h, run_bet hneg, hlength, ?_, booked_inRange h,
      booked_inRange hneg, hmirrors h⟩
    rw [(opposed_booked ys).t, hlength]
  · intro sqrt series test hrun
    obtain ⟨spy, quant, hspy, hquant, hs, hq, hm⟩ := (betsLegally_start.observeAll hrun).runs
    rw [hs, hq, hm]
    exact ⟨booked_inRange hspy, booked_inRange hquant, booked_inRange (legal_neg hquant), hmirrors hquant⟩

/-- A week of each sign. -/
theorem bet_inRange_mirrors_two :
    ∃ s s', ([1, -1] : List ℚ).foldlM bet BettingState.start = .ok s ∧
      ([-1, - -1] : List ℚ).foldlM bet BettingState.start = .ok s' ∧ (1 / 2) ^ s.t ≤ s.wealth ∧ Mirrors s s' := by
  obtain ⟨s, s', hrun, hrun', -, -, hs, -, hmirrors⟩ := bet_inRange_mirrors.1 ([1, -1] : List ℚ) (by simp)
  exact ⟨s, s', hrun, hrun', hs.wealth_ge, hmirrors⟩

end Sequential
end AsymmetricCommittee
