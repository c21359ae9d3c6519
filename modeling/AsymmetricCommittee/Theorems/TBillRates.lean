import AsymmetricCommittee.Evaluation.TBillRules
import AsymmetricCommittee.Contracts.Samples

/-! The accrual rate is point in time. The loop of `select_rate` keeps one row an observation date; the row it picks in
    the end is the latest vintage of the latest observation among the usable rows, so a list with the same usable rows
    gives the same rate. -/

namespace AsymmetricCommittee
namespace TBillRules

variable {K : Type} {accrualDate previous : Date} {rows rows' : List (TBillObservation K)} {r r' : TBillObservation K}

/-- The two cut-offs: the vintage was known before the accrual date, the observation at the previous session. -/
def Usable (accrualDate previous : Date) (r : TBillObservation K) : Prop :=
  r.vintageDate < accrualDate ∧ r.observationDate ≤ previous

theorem not_usable : (accrualDate ≤ r.vintageDate ∨ previous < r.observationDate) ↔ ¬Usable accrualDate previous r := by
  rw [Usable, not_and_or, not_lt, not_le]

/-- The row is the latest usable vintage of its observation. -/
def LatestVintage (accrualDate previous : Date) (rows : List (TBillObservation K)) (r : TBillObservation K) : Prop :=
  r ∈ rows ∧ Usable accrualDate previous r ∧
    ∀ r' ∈ rows, Usable accrualDate previous r' → r'.observationDate = r.observationDate → r'.vintageDate ≤ r.vintageDate

/-- The row is the latest usable vintage of the latest usable observation. -/
def Latest (accrualDate previous : Date) (rows : List (TBillObservation K)) (r : TBillObservation K) : Prop :=
  LatestVintage accrualDate previous rows r ∧
    ∀ r' ∈ rows, Usable accrualDate previous r' → r'.observationDate ≤ r.observationDate

theorem latestVintages_append (rows : List (TBillObservation K)) (r : TBillObservation K) :
    latestVintages accrualDate previous (rows ++ [r]) =
      latestStep accrualDate previous (latestVintages accrualDate previous rows) r := by
  rw [latestVintages, List.foldl_append]
  rfl

/-- What the loop has kept is the latest vintage of its date, and every usable date has one. -/
theorem latestVintages_spec (accrualDate previous : Date) (rows : List (TBillObservation K)) :
    (∀ day r, (latestVintages accrualDate previous rows).get? day = some r →
      r.observationDate = day ∧ LatestVintage accrualDate previous rows r) ∧
    ∀ r ∈ rows, Usable accrualDate previous r →
      ((latestVintages accrualDate previous rows).get? r.observationDate).isSome := by
  induction rows using List.reverseRecOn with
  | nil => exact ⟨nofun, nofun⟩
  | append_singleton rows x ih =>
    obtain ⟨hkept, hsome⟩ := ih
    have hold : ∀ r, LatestVintage accrualDate previous rows r →
        (Usable accrualDate previous x → x.observationDate = r.observationDate → x.vintageDate ≤ r.vintageDate) →
        LatestVintage accrualDate previous (rows ++ [x]) r := by
      rintro r ⟨hmem, husable, hlatest⟩ hx
      refine ⟨List.mem_append_left _ hmem, husable, fun r' hr' => ?_⟩
      rcases List.mem_append.mp hr' with hr' | hr'
      · exact hlatest r' hr'
      · rw [List.mem_singleton.mp hr']
        exact hx
    -- the new row takes the place of its date
    have hset : Usable accrualDate previous x →
        (∀ r ∈ rows, Usable accrualDate previous r → r.observationDate = x.observationDate → r.vintageDate ≤ x.vintageDate) →
        (∀ day r, ((latestVintages accrualDate previous rows).set x.observationDate x).get? day = some r →
          r.observationDate = day ∧ LatestVintage accrualDate previous (rows ++ [x]) r) ∧
        ∀ r ∈ rows ++ [x], Usable accrualDate previous r →
          (((latestVintages accrualDate previous rows).set x.observationDate x).get? r.observationDate).isSome := by
      intro hx hnewest
      constructor
      · intro day r hget
        rw [Dict.get?_set] at hget
        split at hget
        · next hday =>
          cases hget
          refine ⟨hday.symm, List.mem_append_right _ (List.mem_singleton_self _), hx, fun r' hr' hu hd => ?_⟩
          rcases List.mem_append.mp hr' with hr' | hr'
          · exact hnewest r' hr' hu hd
          · rw [List.mem_singleton.mp hr']
        · next hday =>
          obtain ⟨hobs, hlatest⟩ := hkept day r hget
          exact ⟨hobs, hold r hlatest fun _ hd => absurd (hobs ▸ hd.symm) hday⟩
      · intro r hr hu
        rw [Dict.get?_set]
        split
        · rfl
        · next hne =>
          rcases List.mem_append.mp hr with hr | hr
          · exact hsome r hr hu
          · exact absurd (congrArg _ (List.mem_singleton.mp hr)) hne
    rw [latestVintages_append, latestStep]
    split
    · next hskip =>
      have hx := not_usable.mp hskip
      refine ⟨fun day r hget => ⟨(hkept day r hget).1, hold r (hkept day r hget).2 fun hu => absurd hu hx⟩, fun r hr hu => ?_⟩
      rcases List.mem_append.mp hr with hr | hr
      · exact hsome r hr hu
      · rw [List.mem_singleton.mp hr] at hu
        exact absurd hu hx
    · next hskip =>
      have hx : Usable accrualDate previous x := by
        by_contra hx
        exact hskip (not_usable.mpr hx)
      cases hget : (latestVintages accrualDate previous rows).get? x.observationDate with
      | none =>
        refine hset hx fun r hr hu hd => ?_
        have := hsome r hr hu
        rw [hd, hget] at this
        cases this
      | some known =>
        obtain ⟨hobs, hlatest⟩ := hkept _ _ hget
        dsimp only
        split
        · next hlt => exact hset hx fun r hr hu hd => (hlatest.2.2 r hr hu (hd.trans hobs.symm)).trans hlt.le
        · next hlt =>
          refine ⟨fun day r hget' => ⟨(hkept day r hget').1, hold r (hkept day r hget').2 fun _ hd => ?_⟩, fun r hr hu => ?_⟩
          · have hrk : r = known := by
              rw [hd, (hkept day r hget').1, hget'] at hget
              exact Option.some.inj hget
            rw [hrk]
            exact not_lt.mp hlt
          · rcases List.mem_append.mp hr with hr | hr
            · exact hsome r hr hu
            · rw [List.mem_singleton.mp hr, hget]
              rfl

/-- The rate that a row gives. -/
def rateOf (r : TBillObservation K) : TBillRate K := ⟨r.observationDate, r.vintageDate, r.yieldPct⟩

/-- With coverage and a previous session, the rate is that of a latest row; without a usable row there is none. -/
theorem selectRate_cases {coverage : TBillVintageCoverage} {calendar : TradingCalendar}
    (hcoverage : coverage.earliestVintage < accrualDate) (hprevious : calendar.previousSession accrualDate = .ok previous)
    (rows : List (TBillObservation K)) :
    ((∀ r ∈ rows, ¬Usable accrualDate previous r) ∧
      selectRate rows (some coverage) accrualDate calendar = .error .noUsableRate) ∨
    ∃ r, Latest accrualDate previous rows r ∧ selectRate rows (some coverage) accrualDate calendar = .ok (rateOf r) := by
  obtain ⟨hkept, hsome⟩ := latestVintages_spec accrualDate previous rows
  simp only [selectRate, if_neg (not_le.mpr hcoverage), hprevious]
  cases hmax : (latestVintages accrualDate previous rows).keys.max? with
  | none =>
    refine .inl ⟨fun r hr hu => ?_, rfl⟩
    have hkeys := List.max?_eq_none_iff.mp hmax
    have hnone : (latestVintages accrualDate previous rows).get? r.observationDate = none :=
      Dict.get?_eq_none.mpr (by rw [hkeys]; exact List.not_mem_nil)
    have := hsome r hr hu
    rw [hnone] at this
    cases this
  | some day =>
    obtain ⟨hday, hlast⟩ := List.max?_eq_some_iff.mp hmax
    have hget : (latestVintages accrualDate previous rows).get? day ≠ none := fun h => Dict.get?_eq_none.mp h hday
    obtain ⟨r, hr⟩ := Option.ne_none_iff_exists'.mp hget
    obtain ⟨hobs, hlatest⟩ := hkept day r hr
    refine .inr ⟨r, ⟨hlatest, fun r' hr' hu => ?_⟩, by simp only [hr, rateOf]⟩
    have hkey : r'.observationDate ∈ (latestVintages accrualDate previous rows).keys := by
      by_contra hnot
      have := hsome r' hr' hu
      rw [Dict.get?_eq_none.mpr hnot] at this
      cases this
    rw [hobs]
    exact hlast _ hkey

/-- The pairs of observation date and vintage date are distinct. -/
def DistinctPairs (rows : List (TBillObservation K)) : Prop := (rows.map fun r => (r.observationDate, r.vintageDate)).Nodup

/-- Two latest rows of lists with the same usable rows are one row. -/
theorem Latest.unique (hrows : DistinctPairs rows) (hsame : ∀ r, Usable accrualDate previous r → (r ∈ rows ↔ r ∈ rows'))
    (hr : Latest accrualDate previous rows r) (hr' : Latest accrualDate previous rows' r') : r' = r := by
  obtain ⟨⟨hmem, hu, hvintage⟩, hobs⟩ := hr
  obtain ⟨⟨hmem', hu', hvintage'⟩, hobs'⟩ := hr'
  have hin : r' ∈ rows := (hsame r' hu').mpr hmem'
  have hin' : r ∈ rows' := (hsame r hu).mp hmem
  have hdate : r'.observationDate = r.observationDate := le_antisymm (hobs r' hin hu') (hobs' r hin' hu)
  have hversion : r'.vintageDate = r.vintageDate :=
    le_antisymm (hvintage r' hin hu' hdate) (hvintage' r hin' hu hdate.symm)
  exact List.inj_on_of_nodup_map hrows hin hmem (Prod.ext hdate hversion)

/-- The rate depends on the usable rows only, and is the latest usable vintage of the latest usable observation. -/
theorem selectRate_pointInTime (coverage : Option TBillVintageCoverage) (accrualDate : Date) (calendar : TradingCalendar)
    (rows : List (TBillObservation K)) (hrows : DistinctPairs rows) :
    (∀ rows' : List (TBillObservation K),
      (∀ r previous, calendar.previousSession accrualDate = .ok previous → Usable accrualDate previous r →
        (r ∈ rows ↔ r ∈ rows')) →
      selectRate rows' coverage accrualDate calendar = selectRate rows coverage accrualDate calendar) ∧
    ∀ rate, selectRate rows coverage accrualDate calendar = .ok rate →
      ∃ previous r, calendar.previousSession accrualDate = .ok previous ∧ Latest accrualDate previous rows r ∧
        rate = rateOf r := by
  cases coverage with
  | none => exact ⟨fun _ _ => rfl, nofun⟩
  | some coverage =>
    by_cases hcoverage : accrualDate ≤ coverage.earliestVintage
    · simp [selectRate, hcoverage]
    · rw [not_le] at hcoverage
      cases hprevious : calendar.previousSession accrualDate with
      | error e => simp [selectRate, not_le.mpr hcoverage, hprevious]
      | ok previous =>
        constructor
        · intro rows' hsame
          have hsame : ∀ r, Usable accrualDate previous r → (r ∈ rows ↔ r ∈ rows') := fun r => hsame r previous rfl
          rcases selectRate_cases hcoverage hprevious rows with ⟨hnone, h⟩ | ⟨r, hr, h⟩
          · rcases selectRate_cases hcoverage hprevious rows' with ⟨-, h'⟩ | ⟨r', hr', -⟩
            · rw [h, h']
            · exact absurd hr'.1.2.1 (hnone r' ((hsame r' hr'.1.2.1).mpr hr'.1.1))
          · rcases selectRate_cases hcoverage hprevious rows' with ⟨hnone, -⟩ | ⟨r', hr', h'⟩
            · exact absurd hr.1.2.1 (hnone r ((hsame r hr.1.2.1).mp hr.1.1))
            · rw [h, h', hr.unique hrows hsame hr']
        · intro rate hrate
          rcases selectRate_cases hcoverage hprevious rows with ⟨-, h⟩ | ⟨r, hr, h⟩
          · rw [h] at hrate
            cases hrate
          · rw [h] at hrate
            exact ⟨previous, r, rfl, hr, (Except.ok.inj hrate).symm⟩

/-- A session on one day of a covered month. -/
def ninth : TradingSession := ⟨⟨0, 0⟩, ⟨0, 0⟩, ⟨"v", Samples.label_v⟩, 9, ⟨0, 0⟩, ⟨1, 0⟩, Samples.opens_first, Samples.known_then⟩

def month : TradingCalendar := ⟨Dict.empty.set 9 ninth, [(1, 30)]⟩

def monthCoverage : TBillVintageCoverage :=
  ⟨⟨"DGS3MO", by decide⟩, 1, 30, 2, ⟨"0000000000000000000000000000000000000000000000000000000000000000", Samples.sha256_zeros⟩, ⟨0, 0⟩,
    ⟨"v", Samples.label_v⟩, by decide, by decide⟩

def observation (day : Date) (late : Nat) (rate : ℚ) : TBillObservation ℚ :=
  ⟨⟨"DGS3MO", by decide⟩, day, rate, day + late, ⟨"v", Samples.label_v⟩, Int.le_add_of_nonneg_right (Int.natCast_nonneg late)⟩

/-- A revision that becomes current on the accrual date itself changes nothing. -/
theorem selectRate_pointInTime_month :
    selectRate [observation 8 2 7, observation 8 1 5, observation 7 1 4] (some monthCoverage) 10 month =
      selectRate [observation 7 1 4, observation 8 1 5] (some monthCoverage) 10 month :=
  (selectRate_pointInTime (some monthCoverage) 10 month [observation 7 1 4, observation 8 1 5] (by unfold DistinctPairs; decide)).1 _
    fun r previous _ hu => by
      simp only [List.mem_cons, List.not_mem_nil, or_false]
      constructor
      · rintro (rfl | rfl) <;> simp
      · rintro (rfl | rfl | rfl)
        · exact absurd hu.1 (by decide)
        · simp
        · simp

end TBillRules
end AsymmetricCommittee
