import AsymmetricCommittee.Features.Builder
import AsymmetricCommittee.Contracts.Samples
import AsymmetricCommittee.Theorems.PartitionBoundaries

/-! What the growth and margin features compare. Their rows are counted from the end of a series that mixes quarters,
    years to date and years, so rows of longer periods move the row that a value is compared with. -/

namespace AsymmetricCommittee
namespace Builder

section Series
variable {K : Type} {f g : FundamentalFact K} {facts rows : List (FundamentalFact K)}

/-! ### Like and like -/

/-- The days that a fact covers. -/
def daysOf (f : FundamentalFact K) : Option Int := f.periodStart.map fun start => f.periodEnd - start

/-- A fact of a year or of a year to date: longer than a quarter. -/
def Long (f : FundamentalFact K) : Prop := ∃ days ∈ daysOf f, Partitions.quarterDays.2 < days

/-- Two periods are of one length, as far as two quarters are. -/
def SameLength (f g : FundamentalFact K) : Prop :=
  ∃ days ∈ daysOf f, ∃ days' ∈ daysOf g, |days - days'| ≤ Partitions.quarterDays.2 - Partitions.quarterDays.1

/-- The first period ended a number of years after the second, in quarters of the calendar. -/
def YearsApart (years : Int) (f g : FundamentalFact K) : Prop :=
  Renderer.quarter f.periodEnd = Renderer.quarter g.periodEnd + 4 * years

def SamePeriod (f g : FundamentalFact K) : Prop := f.periodStart = g.periodStart ∧ f.periodEnd = g.periodEnd

/-- The `n`-th row from the end. -/
def rowBack (rows : List (FundamentalFact K)) (n : Nat) : Option (FundamentalFact K) := rows.reverse[n - 1]?

/-! ### Later rows -/

theorem orderedInsert_append {α : Type*} {r : α → α → Prop} [DecidableRel r] {a x : α} {u v : List α} (h : r a x) :
    (u ++ x :: v).orderedInsert r a = u.orderedInsert r a ++ x :: v := by
  induction u with
  | nil => simp [h]
  | cons y u ih =>
    by_cases hy : r a y
    · simp [hy]
    · simp [hy, ih]

/-- Facts that come after all others in a sorted order stay at the end. -/
theorem insertionSort_append {α : Type*} {r : α → α → Prop} [DecidableRel r] {u v : List α} (hv : v.Pairwise r)
    (h : ∀ a ∈ u, ∀ b ∈ v, r a b) : (u ++ v).insertionSort r = u.insertionSort r ++ v := by
  cases v with
  | nil => rw [List.append_nil, List.append_nil]
  | cons x v =>
    induction u with
    | nil => exact hv.insertionSort_eq
    | cons a u ih =>
      rw [List.cons_append, List.insertionSort_cons, ih fun a' ha' => h a' (List.mem_cons_of_mem a ha'),
        orderedInsert_append (h a List.mem_cons_self x List.mem_cons_self), List.insertionSort_cons]

/-- The revenue of a year, under the concept that is used before any other. -/
def yearEnding (periodEnd : Date) (value : K) : FundamentalFact K where
  toFact := Partitions.knownAfter (periodEnd + 28) ⟨"0000000001-25-000001", Samples.label_filing⟩
  securityId := ⟨1, Samples.one_securityId⟩
  concept := ⟨"us-gaap:RevenueFromContractWithCustomerExcludingAssessedTax", by decide⟩
  unit := ⟨"USD", Samples.unit_usd⟩
  periodStart := some (periodEnd - 365)
  periodEnd := periodEnd
  fiscalPeriod := none
  form := none
  value := value
  ordered := fun s hs => by
    rw [← Option.some.inj hs]
    exact sub_le_self _ (by decide)

theorem long_yearEnding (periodEnd : Date) (value : K) : Long (yearEnding periodEnd value) := by
  have hdays : daysOf (yearEnding periodEnd value) = some (periodEnd - (periodEnd - 365)) := rfl
  refine ⟨_, hdays, ?_⟩
  rw [sub_sub_cancel]
  decide

/-- Five years after a day. -/
def fiveYears (day : Int) (values : Fin 5 → K) : List (FundamentalFact K) :=
  (List.finRange 5).map fun i => yearEnding (day + 1 + 365 * (i.val : Int)) (values i)

/-- Years after all other facts are the last rows of the revenue. -/
theorem series_fiveYears {day : Int} (h : ∀ f ∈ facts, f.periodEnd ≤ day) (values : Fin 5 → K) :
    ∃ older, series (facts ++ fiveYears day values) "revenue" = older ++ fiveYears day values := by
  have hfilter : (fiveYears day values).filter
      (fun f => f.concept.val = "us-gaap:RevenueFromContractWithCustomerExcludingAssessedTax") = fiveYears day values :=
    List.filter_eq_self.mpr fun f hf => by
      obtain ⟨i, -, rfl⟩ := List.mem_map.mp hf
      exact decide_eq_true rfl
  have hconcepts : concepts "revenue" = ["us-gaap:RevenueFromContractWithCustomerExcludingAssessedTax",
      "us-gaap:SalesRevenueNet", "us-gaap:Revenues"] := rfl
  have hsorted : (fiveYears day values).Pairwise fun a b => seriesKey a ≤ seriesKey b := by
    refine List.pairwise_map.mpr ((List.pairwise_lt_finRange 5).imp fun {i j} hij => ?_)
    refine (Prod.Lex.lt_iff.mpr (.inl ?_)).le
    show day + 1 + 365 * (i.val : Int) < day + 1 + 365 * (j.val : Int)
    have hlt : i.val < j.val := hij
    omega
  unfold series
  rw [hconcepts, List.map_cons, List.find?_cons_of_pos]
  · dsimp only
    rw [List.filter_append, hfilter, insertionSort_append hsorted]
    · exact ⟨_, rfl⟩
    · intro a ha b hb
      obtain ⟨i, -, rfl⟩ := List.mem_map.mp hb
      refine (Prod.Lex.lt_iff.mpr (.inl ?_)).le
      have hlater : day < day + 1 + 365 * (i.val : Int) := by omega
      exact lt_of_le_of_lt (h a (List.mem_of_mem_filter ha)) hlater
  · rw [List.filter_append, hfilter]
    simp [fiveYears]

/-! ### Quarters without gaps -/

/-- The revenue is filed for one quarter after another and no other period, and gross profit for the same periods. -/
structure Tidy (facts : List (FundamentalFact K)) : Prop where
  successive : ∀ i f g, (series facts "revenue")[i]? = some f → (series facts "revenue")[i + 1]? = some g →
    Renderer.quarter g.periodEnd = Renderer.quarter f.periodEnd + 1
  lengths : ∀ f ∈ series facts "revenue", ∃ days ∈ daysOf f,
    Partitions.quarterDays.1 ≤ days ∧ days ≤ Partitions.quarterDays.2
  together : (series facts "gross_profit").map (fun f => (f.periodStart, f.periodEnd)) =
    (series facts "revenue").map fun f => (f.periodStart, f.periodEnd)

theorem Tidy.quarter_add (h : Tidy facts) {i k : Nat} (hf : (series facts "revenue")[i]? = some f)
    (hg : (series facts "revenue")[i + k]? = some g) : Renderer.quarter g.periodEnd = Renderer.quarter f.periodEnd + k := by
  induction k generalizing g with
  | zero =>
    obtain rfl := Option.some.inj (hf.symm.trans hg)
    simp
  | succ k ih =>
    obtain ⟨hlt, -⟩ := List.getElem?_eq_some_iff.mp hg
    have hmid : (series facts "revenue")[i + k]? = some (series facts "revenue")[i + k] :=
      List.getElem?_eq_getElem (by omega)
    rw [h.successive (i + k) _ g hmid hg, ih hmid]
    push_cast
    ring

/-- The last row is `k` quarters after the row `k` before it, and of the same length. -/
theorem Tidy.rowBack (h : Tidy facts) {k : Nat} (hf : f ∈ rowBack (series facts "revenue") 1)
    (hg : g ∈ rowBack (series facts "revenue") (k + 1)) :
    SameLength f g ∧ Renderer.quarter f.periodEnd = Renderer.quarter g.periodEnd + k := by
  unfold Builder.rowBack at hf hg
  have hlt : k < (series facts "revenue").length := by
    have hlt := (List.getElem?_eq_some_iff.mp hg).1
    rw [List.length_reverse] at hlt
    omega
  rw [List.getElem?_reverse (by omega)] at hf hg
  have hindex : (series facts "revenue").length - 1 - (1 - 1) = (series facts "revenue").length - 1 - (k + 1 - 1) + k := by
    omega
  rw [hindex] at hf
  refine ⟨?_, h.quarter_add hg hf⟩
  obtain ⟨days, hdays, hmin, hmax⟩ := h.lengths f (List.mem_of_getElem? hf)
  obtain ⟨days', hdays', hmin', hmax'⟩ := h.lengths g (List.mem_of_getElem? hg)
  refine ⟨days, hdays, days', hdays', ?_⟩
  rw [abs_le]
  omega

/-- For tidy facts positions and periods agree. -/
theorem comparesLike_of_tidy (h : Tidy facts) :
    (∀ f ∈ rowBack (series facts "revenue") 1, ∀ g ∈ rowBack (series facts "revenue") 5, SameLength f g ∧ YearsApart 1 f g) ∧
    (∀ f ∈ rowBack (series facts "revenue") 1, ∀ g ∈ rowBack (series facts "revenue") 13, SameLength f g ∧ YearsApart 3 f g) ∧
    ∀ rows ∈ (lastRows (series facts "gross_profit") 5).zip (lastRows (series facts "revenue") 5), SamePeriod rows.1 rows.2 := by
  refine ⟨fun f hf g hg => h.rowBack hf hg, fun f hf g hg => h.rowBack hf hg, fun rows hrows => ?_⟩
  have hlength : (series facts "gross_profit").length = (series facts "revenue").length := by
    simpa using congrArg List.length h.together
  obtain ⟨i, hi⟩ := List.getElem?_of_mem hrows
  rw [List.getElem?_zip_eq_some] at hi
  have hperiods : (lastRows (series facts "gross_profit") 5).map (fun f => (f.periodStart, f.periodEnd)) =
      (lastRows (series facts "revenue") 5).map fun f => (f.periodStart, f.periodEnd) := by
    unfold lastRows
    rw [List.map_drop, List.map_drop, h.together, hlength]
  have hequal := congrArg (·[i]?) hperiods
  simp only [List.getElem?_map, hi.1, hi.2, Option.map_some, Option.some.injEq] at hequal
  exact ⟨(Prod.mk.inj hequal).1, (Prod.mk.inj hequal).2⟩

/-! ### Comparing -/

variable [Field K] [LinearOrder K]

/-- A feature of the facts. -/
def featureOf (cbrt : K → K) (marketCap : Option K) (facts : List (FundamentalFact K)) (name : String) : Option K :=
  ((fundamentalFeaturesOf cbrt facts marketCap).lookup name).join

def comparing : List String := ["revenue_growth_yoy", "revenue_growth_3y_cagr", "gross_margin_trend"]

/-- The features compare like with like: revenues of periods of one length one year and three years apart, gross profit with
    the revenue of its period; and they are the same with facts of longer periods and without a quarter of gross profit. -/
structure ComparesLike (cbrt : K → K) (marketCap : Option K) (facts : List (FundamentalFact K)) : Prop where
  yoy : ∀ f ∈ rowBack (series facts "revenue") 1, ∀ g ∈ rowBack (series facts "revenue") 5, SameLength f g ∧ YearsApart 1 f g
  cagr : ∀ f ∈ rowBack (series facts "revenue") 1, ∀ g ∈ rowBack (series facts "revenue") 13, SameLength f g ∧ YearsApart 3 f g
  margins : ∀ rows ∈ (lastRows (series facts "gross_profit") 5).zip (lastRows (series facts "revenue") 5),
    SamePeriod rows.1 rows.2
  added : ∀ extra : List (FundamentalFact K), (∀ f ∈ extra, Long f) → ∀ name ∈ comparing,
    featureOf cbrt marketCap (facts ++ extra) name = featureOf cbrt marketCap facts name
  missing : ∀ before f after, facts = before ++ f :: after → f.concept.val ∈ concepts "gross_profit" →
    Partitions.isQuarterly f = true → ∀ name ∈ comparing,
      featureOf cbrt marketCap (before ++ after) name = featureOf cbrt marketCap facts name

/-- The growth of the last of five years over the first. -/
theorem yoy_fiveYears (cbrt : K → K) (marketCap : Option K) {day : Int} (h : ∀ f ∈ facts, f.periodEnd ≤ day) (c : K) :
    featureOf cbrt marketCap (facts ++ fiveYears day fun i => if i = 4 then c else 1) "revenue_growth_yoy" = some (c - 1) := by
  obtain ⟨older, hseries⟩ := series_fiveYears h fun i => if i = 4 then c else 1
  have hlast : (series (facts ++ fiveYears day fun i => if i = 4 then c else 1) "revenue").reverse =
      yearEnding (day + 1 + 365 * 4) c :: yearEnding (day + 1 + 365 * 3) 1 :: yearEnding (day + 1 + 365 * 2) 1 ::
        yearEnding (day + 1 + 365 * 1) 1 :: yearEnding (day + 1 + 365 * 0) 1 :: older.reverse := by
    rw [hseries, List.reverse_append]
    rfl
  have hfirst : back (series (facts ++ fiveYears day fun i => if i = 4 then c else 1) "revenue") 5 = some 1 := by
    rw [back, hlast]
    rfl
  have hrecent : back (series (facts ++ fiveYears day fun i => if i = 4 then c else 1) "revenue") 1 = some c := by
    rw [back, hlast]
    rfl
  have hfeature : featureOf cbrt marketCap (facts ++ fiveYears day fun i => if i = 4 then c else 1) "revenue_growth_yoy" =
      ((back (series (facts ++ fiveYears day fun i => if i = 4 then c else 1) "revenue") 5).bind fun base =>
        safeDiv (back (series (facts ++ fiveYears day fun i => if i = 4 then c else 1) "revenue") 1) (some base)).map (· - 1) := by
    rfl
  rw [hfeature, hfirst, hrecent]
  show (if (1 : K) = 0 then none else some (c / 1)).map (· - 1) = some (c - 1)
  rw [if_neg one_ne_zero, div_one]
  rfl

/-- The features compare like with like for no facts: years that are added change the growth. -/
theorem comparesLike_never (cbrt : K → K) (marketCap : Option K) (facts : List (FundamentalFact K)) :
    ¬ComparesLike cbrt marketCap facts := by
  intro hlike
  obtain ⟨day, hday⟩ : ∃ day : Int, ∀ f ∈ facts, f.periodEnd ≤ day := by
    obtain ⟨day, hday⟩ := (facts.map (·.periodEnd)).toFinset.bddAbove
    exact ⟨day, fun f hf => hday (by simpa using ⟨f, hf, rfl⟩)⟩
  have hlong (c : K) : ∀ f ∈ fiveYears day (fun i => if i = 4 then c else 1), Long f := fun f hf => by
    obtain ⟨i, -, rfl⟩ := List.mem_map.mp hf
    exact long_yearEnding _ _
  have hname : "revenue_growth_yoy" ∈ comparing := List.mem_cons_self
  have hsame := hlike.added _ (hlong 1) _ hname
  have hdouble := hlike.added _ (hlong 2) _ hname
  rw [yoy_fiveYears cbrt marketCap hday] at hsame hdouble
  have hequal := Option.some.inj (hsame.trans hdouble.symm)
  norm_num at hequal

end Series

/-! ### A year among quarters -/

section Sample

/-- The revenue of a quarter or a year, in days since 1970. -/
def revenueOf (start : Date) (length : Nat) (value : ℚ) : FundamentalFact ℚ :=
  { yearEnding (start + length) value with
    periodStart := some start
    ordered := fun s hs => by
      rw [← Option.some.inj hs]
      exact Int.le_add_of_nonneg_right (Int.natCast_nonneg length) }

/-- The last quarter of 2022 and those of 2023, which doubled. -/
def fiveQuarters : List (FundamentalFact ℚ) :=
  [revenueOf 19266 91 100, revenueOf 19358 89 110, revenueOf 19448 90 120, revenueOf 19539 91 130, revenueOf 19631 91 200]

/-- The year 2023, from the same filing as its last quarter. -/
def year2023 : FundamentalFact ℚ := revenueOf 19358 364 560

/-- The year takes the place of the last quarter, and the growth compares it with the first quarter of 2023. -/
theorem comparesLike_with_year : ¬ComparesLike id none fiveQuarters := by
  intro hlike
  have hlong : ∀ f ∈ [year2023], Long f := fun f hf => by
    obtain rfl := List.mem_singleton.mp hf
    exact ⟨364, rfl, by decide⟩
  have hsame := hlike.added [year2023] hlong "revenue_growth_yoy" List.mem_cons_self
  revert hsame
  decide +kernel

end Sample
end Builder
end AsymmetricCommittee
