import Mathlib

/-! Gradient descent on a linear predictor over standardized samples. A step reads the samples through their means only,
    and the penalty pulls every weight back, so that no number of steps takes a weight beyond what one step allows. -/

namespace Descent

/-! ### Means and deviations -/

section Mean
variable {K : Type*} [Field K]

/-- The arithmetic mean; 0 of nothing. -/
def mean (l : List K) : K := l.sum / l.length

/-- The mean squared distance from the mean. -/
def variance (l : List K) : K := mean (l.map fun x => (x - mean l) ^ 2)

theorem mean_perm {l l' : List K} (h : l.Perm l') : mean l = mean l' := by
  rw [mean, mean, h.sum_eq, h.length_eq]

theorem variance_perm {l l' : List K} (h : l.Perm l') : variance l = variance l' := by
  rw [variance, variance, mean_perm h]
  exact mean_perm (h.map _)

theorem sum_map_affine (a b : K) (l : List K) : (l.map fun x => a * x + b).sum = a * l.sum + l.length * b := by
  induction l with
  | nil => simp
  | cons x l ih =>
    simp only [List.map_cons, List.sum_cons, ih, List.length_cons]
    push_cast
    ring

variable [LinearOrder K] [IsStrictOrderedRing K]

theorem length_ne_zero {l : List K} (h : l ≠ []) : (l.length : K) ≠ 0 := by
  simpa using h

theorem mean_map_affine (a b : K) {l : List K} (h : l ≠ []) : mean (l.map fun x => a * x + b) = a * mean l + b := by
  have hn := length_ne_zero h
  rw [mean, mean, sum_map_affine, List.length_map]
  field_simp

theorem variance_map_affine (a b : K) {l : List K} (h : l ≠ []) :
    variance (l.map fun x => a * x + b) = a ^ 2 * variance l := by
  have hsquare : ((l.map fun x => a * x + b).map fun x => (x - mean (l.map fun x => a * x + b)) ^ 2) =
      (l.map fun x => (x - mean l) ^ 2).map fun x => a ^ 2 * x + 0 := by
    rw [mean_map_affine a b h, List.map_map, List.map_map]
    refine List.map_congr_left fun x _ => ?_
    simp only [Function.comp_apply]
    ring
  have hne : l.map (fun x => (x - mean l) ^ 2) ≠ [] := by simpa using h
  rw [variance, hsquare, mean_map_affine _ _ hne, add_zero, variance]

/-- A population standard deviation: the root of the variance. -/
structure IsDeviation (dev : List K → K) : Prop where
  nonneg : ∀ l, 0 ≤ dev l
  square : ∀ l, l ≠ [] → dev l ^ 2 = variance l

theorem variance_nonneg (l : List K) : 0 ≤ variance l := by
  refine div_nonneg (List.sum_nonneg fun y hy => ?_) (Nat.cast_nonneg _)
  obtain ⟨x, -, rfl⟩ := List.mem_map.mp hy
  exact sq_nonneg _

theorem isDeviation_sqrt : IsDeviation fun l : List ℝ => √(variance l) where
  nonneg _ := Real.sqrt_nonneg _
  square l _ := Real.sq_sqrt (variance_nonneg l)

variable {dev : List K → K} {l l' : List K}

theorem IsDeviation.perm (hdev : IsDeviation dev) (h : l.Perm l') (hl : l ≠ []) : dev l = dev l' := by
  have hl' : l' ≠ [] := fun hnil => hl (List.perm_nil.mp (hnil ▸ h))
  refine (sq_eq_sq₀ (hdev.nonneg l) (hdev.nonneg l')).mp ?_
  rw [hdev.square l hl, hdev.square l' hl', variance_perm h]

theorem IsDeviation.affine (hdev : IsDeviation dev) {a : K} (ha : 0 < a) (b : K) (hl : l ≠ []) :
    dev (l.map fun x => a * x + b) = a * dev l := by
  have hmap : l.map (fun x => a * x + b) ≠ [] := by simpa using hl
  refine (sq_eq_sq₀ (hdev.nonneg _) (mul_nonneg ha.le (hdev.nonneg l))).mp ?_
  rw [hdev.square _ hmap, variance_map_affine a b hl, mul_pow, hdev.square l hl]

/-- The squared distances of the values sum to the squared deviation of as many values. -/
theorem IsDeviation.sum_sq (hdev : IsDeviation dev) (hl : l ≠ []) :
    (l.map fun x => (x - mean l) ^ 2).sum = l.length * dev l ^ 2 := by
  have hn := length_ne_zero hl
  rw [hdev.square l hl, variance]
  generalize mean l = m
  rw [mean, List.length_map]
  field_simp

theorem sq_eq_zero_of_sum {f : K → K} (h : (l.map fun x => f x ^ 2).sum = 0) : ∀ x ∈ l, f x = 0 := by
  intro x hx
  have hle : f x ^ 2 ≤ (l.map fun x => f x ^ 2).sum := by
    refine List.single_le_sum ?_ _ (List.mem_map_of_mem hx)
    intro y hy
    obtain ⟨z, -, rfl⟩ := List.mem_map.mp hy
    exact sq_nonneg _
  have hzero : f x ^ 2 = 0 := le_antisymm (h ▸ hle) (sq_nonneg _)
  simpa using hzero

theorem IsDeviation.eq_mean (hdev : IsDeviation dev) (hzero : dev l = 0) : ∀ x ∈ l, x = mean l := by
  intro x hx
  have hsum : (l.map fun x => (x - mean l) ^ 2).sum = 0 := by
    rw [hdev.sum_sq (List.ne_nil_of_mem hx), hzero]
    ring
  exact sub_eq_zero.mp (sq_eq_zero_of_sum hsum x hx)

/-- The sum of a list is at most the root of its length times the sum of squares. -/
theorem sum_sq_le (l : List K) : l.sum ^ 2 ≤ l.length * (l.map (· ^ 2)).sum := by
  induction l with
  | nil => simp
  | cons x l ih =>
    simp only [List.sum_cons, List.map_cons, List.length_cons]
    push_cast
    have hcross : 2 * x * l.sum ≤ (l.map (· ^ 2)).sum + l.length * x ^ 2 := by
      clear ih
      induction l with
      | nil => simp
      | cons y l ih =>
        simp only [List.sum_cons, List.map_cons, List.length_cons]
        push_cast
        nlinarith [sq_nonneg (x - y)]
    nlinarith

end Mean

/-! ### Standardized columns -/

section Standardize
variable {ε K : Type*} [Field K] [LinearOrder K]

/-- How one feature is standardized. -/
structure Scale (K : Type*) where
  mean : K
  scale : K

/-- The scale of the observed values: a single value or equal values are not scaled. -/
def Scale.of (dev : List K → K) (observed : List K) : Scale K where
  mean := if observed = [] then 0 else Descent.mean observed
  scale :=
    let scale := if 1 < observed.length then dev observed else 1
    if scale = 0 then 1 else scale

/-- A missing value stands at the mean. -/
def Scale.apply (s : Scale K) (value : Option K) : K := (value.getD s.mean - s.mean) / s.scale

omit [LinearOrder K] in
@[simp] theorem Scale.apply_none (s : Scale K) : s.apply none = 0 := by
  simp [Scale.apply]

theorem Scale.of_perm [IsStrictOrderedRing K] {dev : List K → K} (hdev : IsDeviation dev) {l l' : List K} (h : l.Perm l') :
    Scale.of dev l = Scale.of dev l' := by
  have hnil : l = [] ↔ l' = [] := by
    constructor
    · intro hl
      exact List.nil_perm.mp (hl ▸ h)
    · intro hl
      exact List.perm_nil.mp (hl ▸ h)
  by_cases hl : l = []
  · rw [hl, hnil.mp hl]
  · simp only [Scale.of, hnil, mean_perm h, hdev.perm h hl, h.length_eq]

variable [IsStrictOrderedRing K] {dev : List K → K} (hdev : IsDeviation dev)
include hdev

/-- Where the scale is not the deviation, every observed value is the mean. -/
theorem Scale.of_cases (l : List K) :
    (1 < l.length ∧ dev l ≠ 0 ∧ (Scale.of dev l).scale = dev l) ∨
      ((Scale.of dev l).scale = 1 ∧ ∀ x ∈ l, x = (Scale.of dev l).mean) := by
  by_cases hlength : 1 < l.length
  · have hne : l ≠ [] := by
      intro hnil
      simp [hnil] at hlength
    by_cases hzero : dev l = 0
    · refine .inr ⟨by simp [Scale.of, hlength, hzero], ?_⟩
      simpa [Scale.of, hne] using hdev.eq_mean hzero
    · exact .inl ⟨hlength, hzero, by simp [Scale.of, hlength, hzero]⟩
  · refine .inr ⟨by simp [Scale.of, hlength], ?_⟩
    match l, hlength with
    | [], _ => simp
    | [x], _ => simp [Scale.of, Descent.mean]
    | x :: y :: l, hlength => simp at hlength

theorem Scale.pos (l : List K) : 0 < (Scale.of dev l).scale := by
  rcases Scale.of_cases hdev l with ⟨-, hne, hscale⟩ | ⟨hscale, -⟩
  · rw [hscale]
    exact lt_of_le_of_ne (hdev.nonneg l) hne.symm
  · rw [hscale]
    exact one_pos

/-- A positive affine change of the observed values changes no standardized value of theirs. -/
theorem Scale.apply_affine {a : K} (ha : 0 < a) (b : K) (l : List K) :
    ((∀ value, (Scale.of dev (l.map fun x => a * x + b)).apply (value.map fun x => a * x + b) = (Scale.of dev l).apply value)) ∨
      ((∀ x ∈ l, (Scale.of dev l).apply (some x) = 0) ∧
        ∀ x ∈ l, (Scale.of dev (l.map fun x => a * x + b)).apply (some (a * x + b)) = 0) := by
  rcases Scale.of_cases hdev l with ⟨hlength, hne, hscale⟩ | ⟨-, hmean⟩
  · refine .inl fun value => ?_
    have hl : l ≠ [] := by
      intro hnil
      simp [hnil] at hlength
    have hmap : l.map (fun x => a * x + b) ≠ [] := by simpa using hl
    have hscale' : (Scale.of dev (l.map fun x => a * x + b)).scale = a * dev l := by
      simp [Scale.of, hlength, hdev.affine ha b hl, ha.ne', hne]
    cases value with
    | none => simp
    | some x =>
      rw [Scale.apply, Scale.apply, hscale', hscale, Option.map_some, Option.getD_some, Option.getD_some]
      simp only [Scale.of, if_neg hl, if_neg hmap, mean_map_affine a b hl]
      have ha' := ha.ne'
      field_simp
      ring
  · refine .inr ⟨fun x hx => ?_, fun x hx => ?_⟩
    · rw [Scale.apply, Option.getD_some, ← hmean x hx, sub_self, zero_div]
    · have hl := List.ne_nil_of_mem hx
      have hmap : l.map (fun x => a * x + b) ≠ [] := by simpa using hl
      have hx' : x = Descent.mean l := by
        have := hmean x hx
        simpa [Scale.of, hl] using this
      have hmean' : (Scale.of dev (l.map fun x => a * x + b)).mean = a * x + b := by
        simp only [Scale.of, if_neg hmap, mean_map_affine a b hl, ← hx']
      rw [Scale.apply, Option.getD_some, hmean', sub_self, zero_div]

omit hdev in
/-- Equal values have their value as the mean. -/
theorem Scale.of_const {c : K} {l : List K} (hc : ∀ x ∈ l, x = c) {x : K} (hx : x ∈ l) : (Scale.of dev l).mean = x := by
  have hl := List.ne_nil_of_mem hx
  have hn := length_ne_zero hl
  have hsum : l.sum = l.length • c := List.sum_eq_card_nsmul l c hc
  rw [hc x hx]
  simp only [Scale.of, if_neg hl, Descent.mean, hsum, nsmul_eq_mul]
  field_simp

/-- The standardized values of the samples, missing ones included, are at most one in the quadratic mean. -/
theorem Scale.sum_sq_le (values : List (Option K)) :
    (values.map fun v => (Scale.of dev (values.filterMap id)).apply v ^ 2).sum ≤ values.length := by
  generalize hs : Scale.of dev (values.filterMap id) = s
  have hsplit : (values.map fun v => s.apply v ^ 2).sum = ((values.filterMap id).map fun x => s.apply (some x) ^ 2).sum := by
    clear hs
    induction values with
    | nil => rfl
    | cons v values ih =>
      cases v with
      | none => simpa using ih
      | some x => simpa using ih
  have hlength : ((values.filterMap id).length : K) ≤ values.length := by
    exact_mod_cast List.length_filterMap_le id values
  refine hsplit ▸ le_trans ?_ hlength
  generalize values.filterMap id = l at hs
  rcases Scale.of_cases hdev l with ⟨hlen, hne, hscale⟩ | ⟨-, hmean⟩
  · have hl : l ≠ [] := by
      intro hnil
      simp [hnil] at hlen
    have hterm : (l.map fun x => s.apply (some x) ^ 2) = (l.map fun x => (x - Descent.mean l) ^ 2).map fun x => (dev l ^ 2)⁻¹ * x + 0 := by
      rw [List.map_map]
      refine List.map_congr_left fun x _ => ?_
      rw [← hs, Scale.apply, hscale]
      simp only [Scale.of, if_neg hl, Function.comp_apply, Option.getD_some]
      field_simp
      ring
    rw [hterm, sum_map_affine, hdev.sum_sq hl]
    refine le_of_eq ?_
    field_simp
    ring
  · have hterm : (l.map fun x => s.apply (some x) ^ 2) = l.map fun _ => 0 := by
      refine List.map_congr_left fun x hx => ?_
      rw [← hs, Scale.apply, Option.getD_some, ← hmean x hx, sub_self, zero_div]
      ring
    rw [hterm]
    simp

end Standardize

/-! ### Steps -/

section Step
variable {ι K : Type*} [Field K]

/-- A sample: the value of every feature and the target. -/
structure Sample (ι K : Type*) where
  x : ι → K
  target : K

/-- The linear predictor with these weights and this intercept. -/
def predict (features : List ι) (model : (ι → K) × K) (x : ι → K) : K :=
  model.2 + (features.map fun i => model.1 i * x i).sum

def residual (link : K → K) (features : List ι) (model : (ι → K) × K) (s : Sample ι K) : K :=
  link (predict features model s.x) - s.target

/-- One step against the gradient, with a penalty on the weights. -/
def step (link : K → K) (features : List ι) (rate penalty : K) (samples : List (Sample ι K)) (model : (ι → K) × K) :
    (ι → K) × K :=
  (fun i => model.1 i - rate * (mean (samples.map fun s => residual link features model s * s.x i) + penalty * model.1 i),
    model.2 - rate * mean (samples.map (residual link features model)))

variable {link : K → K} {features : List ι} {rate penalty : K} {samples samples' : List (Sample ι K)}

/-- The order of the samples does not matter. -/
theorem step_perm (h : samples.Perm samples') :
    step link features rate penalty samples = step link features rate penalty samples' := by
  funext model
  refine Prod.ext (funext fun i => ?_) ?_
  · simp only [step, mean_perm (h.map fun s => residual link features model s * s.x i)]
  · simp only [step, mean_perm (h.map (residual link features model))]

/-- A feature that is 0 in every sample keeps the weight 0. -/
theorem weight_eq_zero {i : ι} (hzero : ∀ s ∈ samples, s.x i = 0) {model : (ι → K) × K} (hstart : model.1 i = 0) (n : Nat) :
    ((step link features rate penalty samples)^[n] model).1 i = 0 := by
  induction n with
  | zero => exact hstart
  | succ n ih =>
    rw [Function.iterate_succ_apply']
    have hterm : (samples.map fun s => residual link features ((step link features rate penalty samples)^[n] model) s * s.x i) =
        samples.map fun _ => 0 := by
      refine List.map_congr_left fun s hs => ?_
      rw [hzero s hs, mul_zero]
    simp only [step] at hterm ⊢
    rw [ih, hterm]
    simp [mean]

variable [LinearOrder K] [IsStrictOrderedRing K]

theorem abs_sum_mul_le {f g : Sample ι K → K} (hf : ∀ s ∈ samples, |f s| ≤ 1) :
    |(samples.map fun s => f s * g s).sum| ≤ (samples.map fun s => |g s|).sum := by
  induction samples with
  | nil => simp
  | cons s samples ih =>
    obtain ⟨hhead, htail⟩ := List.forall_mem_cons.mp hf
    simp only [List.map_cons, List.sum_cons]
    refine (abs_add_le _ _).trans (add_le_add ?_ (ih htail))
    rw [abs_mul]
    exact mul_le_of_le_one_left (abs_nonneg _) hhead

/-- Where the squares of a feature sum to at most the number of samples, so do its sizes. -/
theorem sum_abs_le {i : ι} (h : (samples.map fun s => s.x i ^ 2).sum ≤ (samples.length : K)) :
    (samples.map fun s => |s.x i|).sum ≤ (samples.length : K) := by
  have hcauchy := sum_sq_le (samples.map fun s => |s.x i|)
  rw [List.map_map, List.length_map] at hcauchy
  have hsquare : (samples.map ((fun x => x ^ 2) ∘ fun s => |s.x i|)) = samples.map fun s => s.x i ^ 2 := by
    refine List.map_congr_left fun s _ => ?_
    exact sq_abs _
  rw [hsquare] at hcauchy
  have hn : (0 : K) ≤ samples.length := Nat.cast_nonneg _
  refine (sq_le_sq₀ (List.sum_nonneg fun y hy => ?_) hn).mp ?_
  · obtain ⟨s, -, rfl⟩ := List.mem_map.mp hy
    exact abs_nonneg _
  calc (samples.map fun s => |s.x i|).sum ^ 2
      ≤ samples.length * (samples.map fun s => s.x i ^ 2).sum := hcauchy
    _ ≤ samples.length * samples.length := mul_le_mul_of_nonneg_left h hn
    _ = (samples.length : K) ^ 2 := (sq _).symm

/-- One step keeps a weight within what the penalty allows. -/
theorem abs_step_le {i : ι} {model : (ι → K) × K} (hresidual : ∀ s ∈ samples, |residual link features model s| ≤ 1)
    (hx : (samples.map fun s => s.x i ^ 2).sum ≤ (samples.length : K)) (hrate : 0 ≤ rate) (hpenalty : 0 < penalty)
    (hsmall : rate * penalty ≤ 1) (hweight : |model.1 i| ≤ 1 / penalty) :
    |(step link features rate penalty samples model).1 i| ≤ 1 / penalty := by
  have hmean : |mean (samples.map fun s => residual link features model s * s.x i)| ≤ 1 := by
    rw [mean, abs_div, List.length_map, Nat.abs_cast]
    refine div_le_one_of_le₀ ?_ (Nat.cast_nonneg _)
    exact (abs_sum_mul_le hresidual).trans (sum_abs_le hx)
  have hform : (step link features rate penalty samples model).1 i =
      (1 - rate * penalty) * model.1 i + -(rate * mean (samples.map fun s => residual link features model s * s.x i)) := by
    simp only [step]
    ring
  rw [hform]
  calc |(1 - rate * penalty) * model.1 i + -(rate * mean (samples.map fun s => residual link features model s * s.x i))|
      ≤ (1 - rate * penalty) * |model.1 i| + rate * |mean (samples.map fun s => residual link features model s * s.x i)| := by
        refine (abs_add_le _ _).trans (le_of_eq ?_)
        rw [abs_neg, abs_mul, abs_mul, abs_of_nonneg (sub_nonneg.mpr hsmall), abs_of_nonneg hrate]
    _ ≤ (1 - rate * penalty) * (1 / penalty) + rate * 1 :=
        add_le_add (mul_le_mul_of_nonneg_left hweight (sub_nonneg.mpr hsmall)) (mul_le_mul_of_nonneg_left hmean hrate)
    _ = 1 / penalty := by
        field_simp
        ring

/-- No number of steps takes a weight beyond what the penalty allows. -/
theorem abs_weight_le {i : ι} {model : (ι → K) × K} (hresidual : ∀ model, ∀ s ∈ samples, |residual link features model s| ≤ 1)
    (hx : (samples.map fun s => s.x i ^ 2).sum ≤ (samples.length : K)) (hrate : 0 ≤ rate) (hpenalty : 0 < penalty)
    (hsmall : rate * penalty ≤ 1) (hweight : |model.1 i| ≤ 1 / penalty) (n : Nat) :
    |((step link features rate penalty samples)^[n] model).1 i| ≤ 1 / penalty := by
  induction n with
  | zero => exact hweight
  | succ n ih =>
    rw [Function.iterate_succ_apply']
    exact abs_step_le (hresidual _) hx hrate hpenalty hsmall ih

end Step
end Descent
