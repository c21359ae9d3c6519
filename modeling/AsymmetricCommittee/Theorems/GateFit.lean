import AsymmetricCommittee.Contracts.Samples
import AsymmetricCommittee.Gate.Model
import AsymmetricCommittee.Lib.Descent
import Mathlib

/-! The logistic fit of the gate. Its columns are standardized samples and its iterations are steps of a penalized descent,
    so that the fit sees neither the order of the examples nor the units of a feature, and stays bounded. -/

namespace AsymmetricCommittee
namespace Gate
open Descent (Sample Scale IsDeviation predict residual step)

variable {K : Type} [Field K] [LinearOrder K] {fl : PyFloat K} {fns : GateFns K} {examples examples' : List (TrainingExample K)}
  {iterations : Nat} {learningRate l2 : K} {name : String}

/-! ### Names -/

omit [LinearOrder K] in
theorem mem_featureNames : name ∈ featureNames fl examples ↔ ∃ e ∈ examples, (number fl (e.values.get? name)).isSome := by
  rw [featureNames, List.mem_mergeSort, List.mem_dedup, List.mem_flatMap]
  refine exists_congr fun e => and_congr_right fun _ => ?_
  rw [List.mem_map]
  constructor
  · intro h
    obtain ⟨⟨k, v⟩, hentry, rfl⟩ := h
    obtain ⟨hmem, hnumber⟩ := List.mem_filter.mp hentry
    rw [Dict.get?_eq_some.mpr hmem]
    exact hnumber
  · intro h
    cases hvalue : e.values.get? name with
    | none =>
      rw [hvalue] at h
      cases h
    | some v =>
      rw [hvalue] at h
      exact ⟨(name, v), List.mem_filter.mpr ⟨Dict.get?_eq_some.mp hvalue, h⟩, rfl⟩

omit [LinearOrder K] in
theorem featureNames_congr (h : ∀ name, (∃ e ∈ examples, (number fl (e.values.get? name)).isSome) ↔
    ∃ e ∈ examples', (number fl (e.values.get? name)).isSome) : featureNames fl examples = featureNames fl examples' := by
  have hmem : ∀ name, name ∈ featureNames fl examples ↔ name ∈ featureNames fl examples' := by
    intro name
    rw [mem_featureNames, mem_featureNames, h name]
  have hnodup : ∀ examples : List (TrainingExample K), (featureNames fl examples).Nodup := by
    intro examples
    exact (List.mergeSort_perm _ _).nodup_iff.mpr (List.nodup_dedup _)
  have hsorted : ∀ examples : List (TrainingExample K), (featureNames fl examples).Pairwise (· ≤ ·) := by
    intro examples
    exact Grouping.sortOn_sorted id _
  refine List.Perm.eq_of_pairwise (fun a b _ _ hab hba => le_antisymm hab hba) (hsorted _) (hsorted _) ?_
  exact (List.perm_ext_iff_of_nodup (hnodup _) (hnodup _)).mpr hmem

/-! ### Samples -/

/-- The numbers that the examples have for a feature. -/
def observedOf (fl : PyFloat K) (examples : List (TrainingExample K)) (name : String) : List K :=
  examples.filterMap fun e => number fl (e.values.get? name)

def scaleOf (fl : PyFloat K) (examples : List (TrainingExample K)) (name : String) : Scale K :=
  Scale.of fl.pstdev (observedOf fl examples name)

/-- The values of a row, standardized by the examples. -/
def standardized (fl : PyFloat K) (examples : List (TrainingExample K)) (values : Dict String (FeatureValue K)) (name : String) : K :=
  (scaleOf fl examples name).apply (number fl (values.get? name))

def sampleOf (fl : PyFloat K) (examples : List (TrainingExample K)) (e : TrainingExample K) : Sample String K :=
  ⟨standardized fl examples e.values, e.target⟩

theorem column_eq (fl : PyFloat K) (examples : List (TrainingExample K)) (name : String) : column fl examples name =
    ⟨name, (scaleOf fl examples name).mean, (scaleOf fl examples name).scale,
      examples.map fun e => (number fl (e.values.get? name)).getD (scaleOf fl examples name).mean⟩ := rfl

theorem term_eq {e : TrainingExample K} {row : Nat} (h : examples[row]? = some e) (weight : K) :
    term (column fl examples name) weight row = weight * (sampleOf fl examples e).x name := by
  rw [column_eq, term, List.getD_eq_getElem?_getD, List.getElem?_map, h, mul_div_assoc]
  rfl

/-- What the iterations reach, as steps of the descent. -/
def fitted (fns : GateFns K) (examples : List (TrainingExample K)) (iterations : Nat) (learningRate l2 : K) : (String → K) × K :=
  let rate := min (max ((examples.map fun e => (e.target : K)).sum / examples.length) 1e-6) (1 - 1e-6)
  (step (sigmoid fns) (featureNames fns.float examples) learningRate l2 (examples.map (sampleOf fns.float examples)))^[iterations]
    (fun _ => 0, fns.log (rate / (1 - rate)))

/-- What a walk over a list and its positions reads at each position. -/
theorem map_zipIdx {α β : Type} {l : List α} {f : α × Nat → β} {g : α → β} (h : ∀ a i, l[i]? = some a → f (a, i) = g a) :
    l.zipIdx.map f = l.map g := by
  conv_rhs => rw [← List.zipIdx_map_fst 0 l, List.map_map]
  refine List.map_congr_left fun x hx => ?_
  exact h x.1 x.2 (List.mem_zipIdx_iff_getElem?.mp hx)

/-- An iteration over the columns is a step over the samples. -/
theorem descend_eq (names : List String) (model : (String → K) × K) :
    descend fns learningRate l2 (names.map (column fns.float examples)) examples (names.map model.1, model.2) =
      let next := step (sigmoid fns) names learningRate l2 (examples.map (sampleOf fns.float examples)) model
      (names.map next.1, next.2) := by
  have herrors : (examples.zipIdx.map fun x => sigmoid fns (model.2 +
        (((names.map model.1).zip (names.map (column fns.float examples))).map fun y => term y.2 y.1 x.2).sum) - (x.1.target : K)) =
      examples.map fun e => residual (sigmoid fns) names model (sampleOf fns.float examples e) := by
    refine map_zipIdx fun e row hrow => ?_
    have hterms : (((names.map model.1).zip (names.map (column fns.float examples))).map fun y => term y.2 y.1 row) =
        names.map fun name => model.1 name * (sampleOf fns.float examples e).x name := by
      rw [List.zip_map', List.map_map]
      exact List.map_congr_left fun name _ => term_eq hrow (model.1 name)
    simp only [hterms]
    rfl
  have hgradient : ∀ name, ((examples.map fun e => residual (sigmoid fns) names model (sampleOf fns.float examples e)).zipIdx.map
        fun x => term (column fns.float examples name) x.1 x.2) =
      examples.map fun e => residual (sigmoid fns) names model (sampleOf fns.float examples e) * (sampleOf fns.float examples e).x name := by
    intro name
    rw [List.zipIdx_map, List.map_map]
    exact map_zipIdx fun e row hrow => term_eq hrow _
  have hnext : ∀ errors : List K,
      errors = (examples.map fun e => residual (sigmoid fns) names model (sampleOf fns.float examples e)) →
      (((names.map model.1).zip (names.map (column fns.float examples))).map fun y =>
        y.1 - learningRate * (fmean (errors.zipIdx.map fun x => term y.2 x.1 x.2) + l2 * y.1),
        model.2 - learningRate * fmean errors) =
      let next := step (sigmoid fns) names learningRate l2 (examples.map (sampleOf fns.float examples)) model
      (names.map next.1, next.2) := by
    intro errors herrors
    subst herrors
    refine Prod.ext ?_ ?_
    · rw [List.zip_map', List.map_map]
      refine List.map_congr_left fun name _ => ?_
      simp only [Function.comp_apply, hgradient, step, List.map_map]
      rfl
    · simp only [step, List.map_map]
      rfl
  exact hnext _ herrors

theorem iterate_descend (names : List String) (model : (String → K) × K) (n : Nat) :
    (descend fns learningRate l2 (names.map (column fns.float examples)) examples)^[n] (names.map model.1, model.2) =
      let next := (step (sigmoid fns) names learningRate l2 (examples.map (sampleOf fns.float examples)))^[n] model
      (names.map next.1, next.2) := by
  induction n generalizing model with
  | zero => rfl
  | succ n ih =>
    rw [Function.iterate_succ_apply, Function.iterate_succ_apply, descend_eq]
    exact ih _

/-- The fit, read off the steps of the descent. -/
theorem fitLogistic_eq (hne : examples ≠ []) : fitLogistic fns examples iterations learningRate l2 =
    let names := featureNames fns.float examples
    let model := fitted fns examples iterations learningRate l2
    ⟨names, names.map fun name => (scaleOf fns.float examples name).mean,
      names.map fun name => (scaleOf fns.float examples name).scale, names.map model.1, model.2⟩ := by
  have hstart : ∀ b : K, (((featureNames fns.float examples).map (column fns.float examples)).map fun _ => (0 : K), b) =
      ((featureNames fns.float examples).map (fun _ => (0 : K)), b) := by
    intro b
    rw [List.map_map]
    rfl
  have hempty : examples.isEmpty = false := by simpa using hne
  simp only [fitLogistic, hempty, Bool.false_eq_true, if_false, hstart, fitted]
  have hrun (b : K) : (descend fns learningRate l2 ((featureNames fns.float examples).map (column fns.float examples))
      examples)^[iterations] ((featureNames fns.float examples).map fun _ => 0, b) = _ :=
    iterate_descend (featureNames fns.float examples) (fun _ => 0, b) iterations
  have hnames : ((featureNames fns.float examples).map (column fns.float examples)).map (·.name) = featureNames fns.float examples := by
    rw [List.map_map]
    exact List.map_id _
  simp only [hrun, hnames, List.map_map]
  rfl

/-- The score of a row is the link of the predictor at its standardized values. -/
theorem score_fitLogistic (hne : examples ≠ []) (values : Dict String (FeatureValue K)) :
    (fitLogistic fns examples iterations learningRate l2).score fns values =
      sigmoid fns (predict (featureNames fns.float examples) (fitted fns examples iterations learningRate l2)
        (standardized fns.float examples values)) := by
  rw [fitLogistic_eq hne, LogisticGate.score, predict]
  simp only [List.zip_map', ← List.map_prod_left_eq_zip, List.map_map]
  congr 3
  refine List.map_congr_left fun name _ => ?_
  simp only [Function.comp_apply, standardized, Scale.apply, mul_div_assoc]

omit [LinearOrder K] in
theorem featureNames_nil (fl : PyFloat K) : featureNames fl ([] : List (TrainingExample K)) = [] := by
  rw [featureNames]
  simp

/-- Without examples the model is blank. -/
theorem fitLogistic_nil : fitLogistic fns [] iterations learningRate l2 = ⟨[], [], [], [], 0⟩ := by
  simp [fitLogistic, featureNames_nil]

/-! ### Order and units -/

section Invariance
variable {a b : String → K} {reordered : List (TrainingExample K)} {values values' : Dict String (FeatureValue K)}

/-- Every number of a row under an affine change of its feature. -/
def Rescaled (fl : PyFloat K) (a b : String → K) (values values' : Dict String (FeatureValue K)) : Prop :=
  ∀ name, number fl (values'.get? name) = (number fl (values.get? name)).map fun x => a name * x + b name

def ExampleRescaled (fl : PyFloat K) (a b : String → K) (e e' : TrainingExample K) : Prop :=
  e'.target = e.target ∧ Rescaled fl a b e.values e'.values

omit [LinearOrder K] in
theorem observedOf_rescaled (h : List.Forall₂ (ExampleRescaled fl a b) examples examples') (name : String) :
    observedOf fl examples' name = (observedOf fl examples name).map fun x => a name * x + b name := by
  unfold observedOf
  induction h with
  | nil => rfl
  | @cons e e' _ _ he _ ih =>
    rw [List.filterMap_cons, List.filterMap_cons, he.2 name, ih]
    cases number fl (e.values.get? name) with
    | none => rfl
    | some x => rfl

omit [LinearOrder K] in
theorem featureNames_rescaled (h : List.Forall₂ (ExampleRescaled fl a b) examples examples') :
    featureNames fl examples' = featureNames fl examples := by
  refine featureNames_congr fun name => ?_
  have hlists : (examples'.map fun e => (number fl (e.values.get? name)).isSome) =
      examples.map fun e => (number fl (e.values.get? name)).isSome := by
    refine (Forall₂.map_eq_of_mem h fun e _ e' _ he => ?_).symm
    rw [he.2 name, Option.isSome_map]
  have hiff : ∀ examples : List (TrainingExample K), (∃ e ∈ examples, (number fl (e.values.get? name)).isSome) ↔
      true ∈ examples.map fun e => (number fl (e.values.get? name)).isSome := by
    intro examples
    exact List.mem_map.symm
  rw [hiff, hiff, hlists]

omit [LinearOrder K] in
theorem mem_observedOf {e : TrainingExample K} (he : e ∈ examples) {x : K} (hx : number fl (e.values.get? name) = some x) :
    x ∈ observedOf fl examples name := List.mem_filterMap.mpr ⟨e, he, hx⟩

variable [IsStrictOrderedRing K] (hdev : IsDeviation fl.pstdev) (ha : ∀ name, 0 < a name)
  (h : List.Forall₂ (ExampleRescaled fl a b) examples examples')
include hdev ha h

/-- A change of units changes no standardized value, but where all examples agree; there the examples stand at 0. -/
theorem standardized_rescaled (name : String) :
    (∀ values values', Rescaled fl a b values values' →
      standardized fl examples' values' name = standardized fl examples values name) ∨
    ((∀ e ∈ examples, standardized fl examples e.values name = 0) ∧
      ∀ e ∈ examples, ∀ values', Rescaled fl a b e.values values' → standardized fl examples' values' name = 0) := by
  unfold standardized scaleOf
  rw [observedOf_rescaled h]
  rcases Scale.apply_affine hdev (ha name) (b name) (observedOf fl examples name) with happly | ⟨hzero, hzero'⟩
  · refine .inl fun values values' hvalues => ?_
    rw [hvalues name]
    exact happly _
  · refine .inr ⟨fun e he => ?_, fun e he values' hvalues => ?_⟩
    · cases hx : number fl (e.values.get? name) with
      | none => exact Scale.apply_none _
      | some x => exact hzero x (mem_observedOf he hx)
    · rw [hvalues name]
      cases hx : number fl (e.values.get? name) with
      | none => exact Scale.apply_none _
      | some x => exact hzero' x (mem_observedOf he hx)

theorem samples_rescaled : examples'.map (sampleOf fl examples') = examples.map (sampleOf fl examples) := by
  refine (Forall₂.map_eq_of_mem h fun e he e' _ hee' => ?_).symm
  have hx : standardized fl examples e.values = standardized fl examples' e'.values := by
    funext name
    rcases standardized_rescaled hdev ha h name with hsame | ⟨hzero, hzero'⟩
    · exact (hsame _ _ hee'.2).symm
    · rw [hzero e he, hzero' e he _ hee'.2]
  rw [sampleOf, sampleOf, hx, hee'.1]

end Invariance

section Invariance
variable {a b : String → K} {reordered : List (TrainingExample K)}

theorem fitted_congr (hnames : featureNames fns.float examples' = featureNames fns.float examples)
    (hsamples : (examples'.map (sampleOf fns.float examples')).Perm (examples.map (sampleOf fns.float examples))) :
    fitted fns examples' iterations learningRate l2 = fitted fns examples iterations learningRate l2 := by
  have htargets : ∀ examples : List (TrainingExample K), (examples.map fun e => (e.target : K)) =
      (examples.map (sampleOf fns.float examples)).map (·.target) := by
    intro examples
    rw [List.map_map]
    rfl
  have hlength : examples'.length = examples.length := by simpa using hsamples.length_eq
  have hrate : (examples'.map fun e => (e.target : K)).sum = (examples.map fun e => (e.target : K)).sum := by
    rw [htargets, htargets]
    exact (hsamples.map _).sum_eq
  simp only [fitted, hnames, hrate, hlength, Descent.step_perm hsamples]

variable [IsStrictOrderedRing K]

theorem scaleOf_perm (hdev : IsDeviation fl.pstdev) (h : examples.Perm examples') :
    scaleOf fl examples = scaleOf fl examples' := by
  funext name
  exact Scale.of_perm hdev (h.filterMap _)

omit [LinearOrder K] [IsStrictOrderedRing K] in
theorem featureNames_perm (h : examples.Perm examples') : featureNames fl examples = featureNames fl examples' :=
  featureNames_congr fun _ => exists_congr fun _ => and_congr_left fun _ => h.mem_iff

/-- The fit does not depend on the order of the examples. -/
theorem fitLogistic_perm (hdev : IsDeviation fns.float.pstdev) (h : examples.Perm examples') :
    fitLogistic fns examples' iterations learningRate l2 = fitLogistic fns examples iterations learningRate l2 := by
  by_cases hne : examples = []
  · subst hne
    rw [List.nil_perm.mp h]
  · have hne' : examples' ≠ [] := by
      intro hnil
      exact hne (List.perm_nil.mp (hnil ▸ h))
    have hscale := scaleOf_perm hdev h
    have hsample : sampleOf fns.float examples' = sampleOf fns.float examples := by
      funext e
      unfold sampleOf standardized
      rw [hscale]
    have hfitted : fitted fns examples' iterations learningRate l2 = fitted fns examples iterations learningRate l2 := by
      refine fitted_congr (featureNames_perm h).symm ?_
      rw [hsample]
      exact (h.map _).symm
    rw [fitLogistic_eq hne, fitLogistic_eq hne', hfitted, hscale, featureNames_perm h]

omit [IsStrictOrderedRing K] in
/-- The weight of a feature at which all examples stand at 0 stays 0. -/
theorem fitted_eq_zero (hzero : ∀ e ∈ examples, standardized fns.float examples e.values name = 0) :
    (fitted fns examples iterations learningRate l2).1 name = 0 := by
  refine Descent.weight_eq_zero ?_ rfl iterations
  intro s hs
  obtain ⟨e, he, rfl⟩ := List.mem_map.mp hs
  exact hzero e he

/-- The fit depends neither on the order of the examples nor on the units of the features: under a positive affine change of
    every feature the weights are the same, and so is the score of every row. -/
theorem fitLogistic_invariant (hdev : IsDeviation fns.float.pstdev) (ha : ∀ name, 0 < a name) (hperm : examples.Perm reordered)
    (hscaled : List.Forall₂ (ExampleRescaled fns.float a b) reordered examples') (iterations : Nat) (learningRate l2 : K) :
    let model := fitLogistic fns examples iterations learningRate l2
    let model' := fitLogistic fns examples' iterations learningRate l2
    model'.names = model.names ∧ model'.coefficients = model.coefficients ∧ model'.intercept = model.intercept ∧
      ∀ values values', Rescaled fns.float a b values values' → model'.score fns values' = model.score fns values := by
  rw [← fitLogistic_perm hdev hperm]
  by_cases hne : reordered = []
  · subst hne
    cases hscaled
    rw [fitLogistic_nil]
    exact ⟨rfl, rfl, rfl, fun _ _ _ => rfl⟩
  · have hne' : examples' ≠ [] := by
      intro hnil
      subst hnil
      cases hscaled
      exact hne rfl
    have hnames := featureNames_rescaled hscaled
    have hfitted : fitted fns examples' iterations learningRate l2 = fitted fns reordered iterations learningRate l2 := by
      refine fitted_congr hnames ?_
      rw [samples_rescaled hdev ha hscaled]
    refine ⟨?_, ?_, ?_, fun values values' hvalues => ?_⟩
    · rw [fitLogistic_eq hne, fitLogistic_eq hne', hnames]
    · rw [fitLogistic_eq hne, fitLogistic_eq hne', hnames, hfitted]
    · rw [fitLogistic_eq hne, fitLogistic_eq hne', hfitted]
    · rw [score_fitLogistic hne, score_fitLogistic hne', hnames, hfitted]
      refine congrArg (sigmoid fns) ?_
      simp only [predict]
      refine congrArg (fun terms : List K => _ + terms.sum) (List.map_congr_left fun name _ => ?_)
      rcases standardized_rescaled hdev ha hscaled name with hsame | ⟨hzero, -⟩
      · rw [hsame values values' hvalues]
      · rw [fitted_eq_zero hzero, zero_mul, zero_mul]

end Invariance

section Samples

/-- The functions of `math` and `statistics` over the reals. -/
noncomputable def realFns : GateFns ℝ := ⟨⟨fun _ => true, fun l => √(Descent.variance l), fun _ => ""⟩, Real.exp, Real.log⟩

def oneValue (x : ℝ) : Dict String (FeatureValue ℝ) := ⟨[("x", .number x)], List.nodup_singleton _⟩

def oneExample (sid : Int) (x : ℝ) (target : Nat) : TrainingExample ℝ := ⟨sid, ⟨0, 0⟩, ⟨0, 0⟩, oneValue x, target⟩

theorem number_oneValue (x : ℝ) (name : String) :
    number realFns.float ((oneValue x).get? name) = if name = "x" then some x else none := by
  rw [Dict.get?, oneValue, List.lookup_cons]
  by_cases hname : name = "x"
  · subst hname
    rfl
  · rw [beq_eq_false_iff_ne.mpr hname, if_neg hname]
    rfl

theorem rescaled_oneValue (x : ℝ) : Rescaled realFns.float (fun _ => 2) (fun _ => 1) (oneValue x) (oneValue (2 * x + 1)) := by
  intro name
  rw [number_oneValue, number_oneValue]
  split <;> rfl

theorem fitLogistic_invariant_pair :
    (fitLogistic realFns [oneExample 2 (2 * 3 + 1) 1, oneExample 1 (2 * 1 + 1) 0] 300 0.08 0.01).score realFns (oneValue (2 * 5 + 1)) =
      (fitLogistic realFns [oneExample 1 1 0, oneExample 2 3 1] 300 0.08 0.01).score realFns (oneValue 5) := by
  have hswap : [oneExample 1 1 0, oneExample 2 3 1].Perm [oneExample 2 3 1, oneExample 1 1 0] := List.Perm.swap _ _ _
  have hscaled : List.Forall₂ (ExampleRescaled realFns.float (fun _ => 2) (fun _ => 1)) [oneExample 2 3 1, oneExample 1 1 0]
      [oneExample 2 (2 * 3 + 1) 1, oneExample 1 (2 * 1 + 1) 0] :=
    .cons ⟨rfl, rescaled_oneValue 3⟩ (.cons ⟨rfl, rescaled_oneValue 1⟩ .nil)
  have hall := fitLogistic_invariant Descent.isDeviation_sqrt (fun _ => two_pos) hswap hscaled 300 0.08 0.01
  exact hall.2.2.2 _ _ (rescaled_oneValue 5)

end Samples

/-! ### Bounds -/

section Bounds
variable [IsStrictOrderedRing K]

theorem sigmoid_mem (hexp : ∀ x, 0 < fns.exp x) (x : K) : 0 < sigmoid fns x ∧ sigmoid fns x < 1 := by
  have hpos := hexp (-(max (-35) (min 35 x)))
  constructor
  · exact div_pos one_pos (add_pos one_pos hpos)
  · exact (div_lt_one (add_pos one_pos hpos)).mpr (lt_add_of_pos_right 1 hpos)

theorem abs_residual_le (hexp : ∀ x, 0 < fns.exp x) (htarget : ∀ e ∈ examples, e.target ≤ 1) (names : List String)
    (model : (String → K) × K) : ∀ s ∈ examples.map (sampleOf fns.float examples), |residual (sigmoid fns) names model s| ≤ 1 := by
  intro s hs
  obtain ⟨e, he, rfl⟩ := List.mem_map.mp hs
  have hlink := sigmoid_mem hexp (predict names model (sampleOf fns.float examples e).x)
  have htop : (e.target : K) ≤ 1 := by exact_mod_cast htarget e he
  have hbottom : (0 : K) ≤ e.target := Nat.cast_nonneg _
  rw [abs_le]
  change -1 ≤ _ - (e.target : K) ∧ _ - (e.target : K) ≤ 1
  exact ⟨by linarith [hlink.1], by linarith [hlink.2]⟩

theorem sum_sq_standardized_le (hdev : IsDeviation fl.pstdev) (name : String) :
    ((examples.map (sampleOf fl examples)).map fun s => s.x name ^ 2).sum ≤ ((examples.map (sampleOf fl examples)).length : K) := by
  have hsum := Scale.sum_sq_le hdev (examples.map fun e => number fl (e.values.get? name))
  rw [List.filterMap_map, List.map_map, List.length_map] at hsum
  rw [List.map_map, List.length_map]
  exact hsum

/-- A feature that is the same in all examples that have it stands at 0. -/
theorem standardized_const {c : K} (hconst : ∀ x ∈ observedOf fl examples name, x = c) {e : TrainingExample K} (he : e ∈ examples) :
    standardized fl examples e.values name = 0 := by
  rw [standardized]
  cases hx : number fl (e.values.get? name) with
  | none => exact Scale.apply_none _
  | some x =>
    rw [Scale.apply, Option.getD_some, scaleOf, Scale.of_const hconst (mem_observedOf he hx), sub_self, zero_div]

omit [Field K] [LinearOrder K] [IsStrictOrderedRing K] in
theorem target_le_one {features : List (FeatureRow K)} {labels : List GateLabel} {asOf : AwareDatetime} :
    ∀ e ∈ eligibleTrainingSet features labels asOf, e.target ≤ 1 := by
  intro e he
  obtain ⟨label, -, hlabel⟩ := List.mem_filterMap.mp he
  split at hlabel
  · obtain ⟨row, -, rfl⟩ := Option.map_eq_some_iff.mp hlabel
    dsimp only
    split <;> omega
  · cases hlabel

/-- A fit of an eligible training set stays bounded: whatever the data and the number of iterations, no coefficient exceeds
    the inverse of the penalty, and a feature that is the same in all examples that have it gets none. -/
theorem fitLogistic_bounded (hdev : IsDeviation fns.float.pstdev) (hexp : ∀ x, 0 < fns.exp x) (hrate : 0 ≤ learningRate)
    (hpenalty : 0 < l2) (hsmall : learningRate * l2 ≤ 1) (features : List (FeatureRow K)) (labels : List GateLabel)
    (asOf : AwareDatetime) (iterations : Nat) :
    let examples := eligibleTrainingSet features labels asOf
    let model := fitLogistic fns examples iterations learningRate l2
    ∀ entry ∈ model.names.zip model.coefficients, |entry.2| ≤ 1 / l2 ∧
      ((∃ c, ∀ e ∈ examples, ∀ x, number fns.float (e.values.get? entry.1) = some x → x = c) → entry.2 = 0) := by
  intro examples model entry hentry
  have hne : examples ≠ [] := by
    intro hnil
    simp only [model, hnil, fitLogistic_nil] at hentry
    cases hentry
  simp only [model, fitLogistic_eq hne, ← List.map_prod_left_eq_zip] at hentry
  obtain ⟨name, -, rfl⟩ := List.mem_map.mp hentry
  constructor
  · refine Descent.abs_weight_le (fun model => abs_residual_le hexp target_le_one _ model) (sum_sq_standardized_le hdev name)
      hrate hpenalty hsmall ?_ iterations
    rw [abs_zero]
    exact (one_div_pos.mpr hpenalty).le
  · intro hsame
    obtain ⟨c, hc⟩ := hsame
    refine fitted_eq_zero fun e he => ?_
    have hconst : ∀ x ∈ observedOf fns.float examples name, x = c := by
      intro x hx
      obtain ⟨e, he, hx⟩ := List.mem_filterMap.mp hx
      exact hc e he x hx
    exact standardized_const hconst he

end Bounds

section Samples

def oneRow (sid : SecurityId) (x : ℝ) : FeatureRow ℝ :=
  ⟨⟨⟨0, 0⟩, ⟨0, 0⟩, ⟨"v1", Samples.label_v1⟩⟩, sid, ⟨"v1", Samples.label_v1⟩, oneValue x⟩

/-- Two rows whose labels are over a day later. -/
def pairSet : List (TrainingExample ℝ) :=
  eligibleTrainingSet [oneRow ⟨1, Samples.one_securityId⟩ 1, oneRow ⟨2, Samples.two_securityId⟩ 3]
    [⟨1, ⟨0, 0⟩, ⟨0, 0⟩, false⟩, ⟨2, ⟨0, 0⟩, ⟨0, 0⟩, true⟩] ⟨86400000000, 0⟩

theorem featureNames_pair : featureNames realFns.float pairSet = ["x"] := by
  have hflat : (pairSet.flatMap fun e => (e.values.entries.filter fun x => (number realFns.float (some x.2)).isSome).map Prod.fst) =
      ["x", "x"] := rfl
  rw [featureNames, hflat]
  simp

theorem fitLogistic_bounded_pair : ∃ c, (fitLogistic realFns pairSet 300 0.08 0.01).coefficients = [c] ∧ |c| ≤ 1 / 0.01 := by
  have hne : pairSet ≠ [] := List.cons_ne_nil _ _
  have hrate : (0 : ℝ) ≤ 0.08 := by norm_num
  have hpenalty : (0 : ℝ) < 0.01 := by norm_num
  have hsmall : (0.08 : ℝ) * 0.01 ≤ 1 := by norm_num
  have hexp : ∀ x, 0 < realFns.exp x := Real.exp_pos
  have hall := fitLogistic_bounded Descent.isDeviation_sqrt hexp hrate hpenalty hsmall
    [oneRow ⟨1, Samples.one_securityId⟩ 1, oneRow ⟨2, Samples.two_securityId⟩ 3]
    [⟨1, ⟨0, 0⟩, ⟨0, 0⟩, false⟩, ⟨2, ⟨0, 0⟩, ⟨0, 0⟩, true⟩] ⟨86400000000, 0⟩ 300
  change ∀ entry ∈ (fitLogistic realFns pairSet 300 0.08 0.01).names.zip _, _ at hall
  refine ⟨(fitted realFns pairSet 300 0.08 0.01).1 "x", ?_, (hall ("x", _) ?_).1⟩
  · rw [fitLogistic_eq hne, featureNames_pair]
    rfl
  · change _ ∈ List.zip _ (fitLogistic realFns pairSet 300 0.08 0.01).coefficients
    rw [fitLogistic_eq hne, featureNames_pair]
    exact List.mem_cons_self

end Samples

end Gate
end AsymmetricCommittee
