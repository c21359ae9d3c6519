import AsymmetricCommittee.Risk.Sizing
import AsymmetricCommittee.Contracts.Samples
import AsymmetricCommittee.Lib.Except
import Mathlib.Analysis.Real.Sqrt
import Mathlib.Analysis.SpecialFunctions.Exp

/-! The committee book meets every limit at once. Each constraint step shrinks the weights of the names it
    is given, and every limit is monotone in the weights, so a limit that one step establishes no later
    step can break. -/

namespace AsymmetricCommittee
namespace Sizing

/-! ### Limits are monotone -/

section Monotone
variable {K : Type} [Field K] [LinearOrder K] [IsStrictOrderedRing K] {a b : List (Int × K)}

/-- The variance of a list of weights under a diagonal covariance. -/
def variance (volatilities : Dict Int K) (weights : List (Int × K)) : K :=
  (weights.map fun e => (e.2 * volOf volatilities e.1) ^ 2).sum

theorem Shrinks.gross_le (h : Shrinks a b) : (b.map (·.2)).sum ≤ (a.map (·.2)).sum :=
  h.sum_le (fun _ w => w) fun _ _ _ _ hle => hle

theorem Shrinks.sectorTotal_le (h : Shrinks a b) (sectors : Dict Int String) (sector : String) :
    sectorTotal sectors sector b ≤ sectorTotal sectors sector a :=
  h.sum_le (fun sid w => if sectors.get? sid = some sector then w else 0) fun sid v w _ hle => by
    split
    · exact hle
    · exact le_rfl

theorem Shrinks.variance_le (h : Shrinks a b) (volatilities : Dict Int K) :
    variance volatilities b ≤ variance volatilities a :=
  h.sum_le (fun sid w => (w * volOf volatilities sid) ^ 2) fun sid v w hv hle => by
    rw [mul_pow, mul_pow]
    exact mul_le_mul_of_nonneg_right (pow_le_pow_left₀ hv hle 2) (sq_nonneg _)

/-! ### The sector caps -/

section Caps
variable {sectors : Dict Int String} {cap : K} {weights : Dict Int K}

/-- The scale of a sector pass is in `[0, 1]`, and brings the sector's total to at most the cap. -/
theorem sectorScale (hcap : 0 ≤ cap) {total : K} (htotal : 0 ≤ total) :
    let scale := if total ≠ 0 then min 1 (cap / total) else 1
    0 ≤ scale ∧ scale ≤ 1 ∧ total * scale ≤ cap := by
  intro scale
  by_cases h : total = 0
  · have hscale : scale = 1 := if_neg (not_not_intro h)
    rw [hscale, h]
    exact ⟨zero_le_one, le_rfl, by rwa [zero_mul]⟩
  · have hscale : scale = min 1 (cap / total) := if_pos h
    rw [hscale]
    have hpos : 0 < total := lt_of_le_of_ne htotal (Ne.symm h)
    refine ⟨le_min zero_le_one (div_nonneg hcap htotal), min_le_left _ _, ?_⟩
    calc total * min 1 (cap / total) ≤ total * (cap / total) := mul_le_mul_of_nonneg_left (min_le_right _ _) htotal
      _ = cap := mul_div_cancel₀ cap h

theorem sectorTotal_nonneg (sectors : Dict Int String) (h : ∀ e ∈ a, 0 ≤ e.2) (sector : String) : 0 ≤ sectorTotal sectors sector a := by
  refine List.sum_nonneg fun x hx => ?_
  obtain ⟨e, he, rfl⟩ := List.mem_map.mp hx
  split
  · exact h e he
  · exact le_rfl

theorem capSector_shrinks (sectors : Dict Int String) (hcap : 0 ≤ cap) (h : ∀ e ∈ weights.entries, 0 ≤ e.2) (sector : String) :
    Shrinks weights.entries (capSector sectors cap weights sector).entries := by
  obtain ⟨h0, h1, -⟩ := sectorScale hcap (sectorTotal_nonneg sectors h sector)
  refine Shrinks.map fun e he => ?_
  have hw := h e he
  by_cases hs : sectors.get? e.1 = some sector
  · simp only [if_pos hs]
    exact ⟨mul_nonneg hw h0, mul_le_of_le_one_right hw h1⟩
  · simp only [if_neg hs]
    exact ⟨hw, le_rfl⟩

theorem capSector_total (sectors : Dict Int String) (hcap : 0 ≤ cap) (h : ∀ e ∈ weights.entries, 0 ≤ e.2) (sector : String) :
    sectorTotal sectors sector (capSector sectors cap weights sector).entries ≤ cap := by
  obtain ⟨-, -, hle⟩ := sectorScale hcap (sectorTotal_nonneg sectors h sector)
  refine le_trans (le_of_eq ?_) hle
  unfold capSector
  simp only [sectorTotal, Dict.entries_map, List.map_map]
  rw [← List.sum_map_mul_right]
  congr 1
  refine List.map_congr_left fun e _ => ?_
  simp only [Function.comp_apply]
  split
  · rfl
  · rw [zero_mul]

/-- The loop over the sectors shrinks the weights and leaves every sector it passes at most at the cap. -/
theorem capSector_foldl (sectors : Dict Int String) (hcap : 0 ≤ cap) (labels : List String) {weights : Dict Int K}
    (h : ∀ e ∈ weights.entries, 0 ≤ e.2) :
    Shrinks weights.entries (labels.foldl (capSector sectors cap) weights).entries ∧
      ∀ s ∈ labels, sectorTotal sectors s (labels.foldl (capSector sectors cap) weights).entries ≤ cap := by
  induction labels generalizing weights with
  | nil => exact ⟨Shrinks.refl h, nofun⟩
  | cons l labels ih =>
    have hstep := capSector_shrinks sectors hcap h l
    have hnonneg : ∀ e ∈ (capSector sectors cap weights l).entries, 0 ≤ e.2 := fun e he => (hstep.mem he).1
    obtain ⟨hrest, hcaps⟩ := ih hnonneg
    refine ⟨hstep.trans hrest, fun s hs => ?_⟩
    rcases List.mem_cons.mp hs with rfl | hs
    · exact (Shrinks.sectorTotal_le hrest sectors s).trans (capSector_total sectors hcap h s)
    · exact hcaps s hs

omit [LinearOrder K] [IsStrictOrderedRing K] in
/-- A sector that no weighted name is in has nothing to cap. -/
theorem sectorTotal_eq_zero {sector : String} (h : ∀ e ∈ a, sectors.get? e.1 ≠ some sector) :
    sectorTotal sectors sector a = 0 := by
  refine List.sum_eq_zero fun x hx => ?_
  obtain ⟨e, he, rfl⟩ := List.mem_map.mp hx
  exact if_neg (h e he)

theorem item_eq_ok {ν : Type} {d : Dict Int ν} {sid : Int} {v : ν} : item d sid = .ok v ↔ d.get? sid = some v := by
  unfold item
  cases d.get? sid with
  | none => exact ⟨nofun, nofun⟩
  | some w => exact ⟨fun h => by cases h; rfl, fun h => by cases h; rfl⟩

/-- `_cap_sectors` succeeds on names whose sectors are known; it shrinks the weights, and then every
    sector is within the cap. -/
theorem capSectors_spec (hcap : 0 ≤ cap) (h : ∀ e ∈ weights.entries, 0 ≤ e.2)
    {capped : Dict Int K} (hrun : capSectors weights sectors cap = .ok capped) :
    Shrinks weights.entries capped.entries ∧ ∀ s, sectorTotal sectors s capped.entries ≤ cap := by
  obtain ⟨names, hnames, hfold⟩ := Except.bind_eq_ok.mp hrun
  cases hfold
  obtain ⟨hshrinks, htotal⟩ := capSector_foldl sectors hcap
    (names.dedup.mergeSort fun a b => decide (a ≤ b)) h
  refine ⟨hshrinks, fun s => ?_⟩
  by_cases hs : s ∈ names
  · exact htotal s (List.mem_mergeSort.mpr (List.mem_dedup.mpr hs))
  · -- no name is in sector `s`
    have hnone : ∀ e ∈ weights.entries, sectors.get? e.1 ≠ some s := fun e he hsome => by
      obtain ⟨n, hn, hitem⟩ := Forall₂.exists_of_mem_left (Except.mapM_eq_ok.mp hnames) (List.mem_map_of_mem he)
      rw [item_eq_ok, hsome] at hitem
      cases hitem
      exact hs hn
    exact (Shrinks.sectorTotal_le hshrinks sectors s).trans ((sectorTotal_eq_zero hnone).le.trans hcap)

omit [IsStrictOrderedRing K] in
theorem capSectors_ok (cap : K) (h : ∀ e ∈ weights.entries, (sectors.get? e.1).isSome) :
    ∃ capped, capSectors weights sectors cap = .ok capped := by
  obtain ⟨names, hnames⟩ := Except.mapM_ok_of_forall (f := item sectors) (l := weights.keys) fun sid hsid => by
    obtain ⟨e, he, rfl⟩ := List.mem_map.mp hsid
    obtain ⟨s, hs⟩ := Option.isSome_iff_exists.mp (h e he)
    exact ⟨s, item_eq_ok.mpr hs⟩
  exact ⟨_, Except.bind_eq_ok.mpr ⟨names, hnames, rfl⟩⟩

end Caps

/-! ### Floors and scales -/

omit [IsStrictOrderedRing K] in
theorem floorWeight_shrinks {minPosition w v : K} (h : 0 ≤ v) (hle : v ≤ w) :
    0 ≤ floorWeight minPosition v ∧ floorWeight minPosition v ≤ w := by
  unfold floorWeight
  split
  · exact ⟨h, hle⟩
  · exact ⟨le_rfl, h.trans hle⟩

omit [IsStrictOrderedRing K] in
theorem le_of_floorWeight_pos {minPosition w : K} (h : 0 < floorWeight minPosition w) :
    minPosition ≤ floorWeight minPosition w := by
  unfold floorWeight at h ⊢
  split
  · assumption
  · rename_i hlt
    rw [if_neg hlt] at h
    exact absurd h (lt_irrefl 0)

/-- The final scale is in `[0, 1]`, and brings the volatility and the gross within their limits. -/
theorem limitScale_spec {vol gross target : K} (hvol : 0 ≤ vol) (hgross : 0 ≤ gross) (htarget : 0 < target) :
    0 ≤ limitScale vol gross target ∧ limitScale vol gross target ≤ 1 ∧
      vol * limitScale vol gross target ≤ target ∧ gross * limitScale vol gross target ≤ 1 := by
  have hscale : ∃ s, 0 ≤ s ∧ s ≤ 1 ∧ vol * s ≤ target ∧
      limitScale vol gross target = if gross ≠ 0 then min s (1 / gross) else s := by
    by_cases h : vol = 0
    · refine ⟨1, zero_le_one, le_rfl, ?_, by simp [limitScale, h]⟩
      rw [h, zero_mul]
      exact htarget.le
    · refine ⟨min 1 (target / vol), le_min zero_le_one (div_nonneg htarget.le hvol), min_le_left _ _, ?_,
        by simp [limitScale, h]⟩
      calc vol * min 1 (target / vol) ≤ vol * (target / vol) := mul_le_mul_of_nonneg_left (min_le_right _ _) hvol
        _ = target := mul_div_cancel₀ target h
  obtain ⟨s, h0, h1, hv, heq⟩ := hscale
  rw [heq]
  by_cases h : gross = 0
  · rw [if_neg (not_not_intro h), h, zero_mul]
    exact ⟨h0, h1, hv, zero_le_one⟩
  · rw [if_pos h]
    refine ⟨le_min h0 (div_nonneg zero_le_one hgross), (min_le_left _ _).trans h1, ?_, ?_⟩
    · exact (mul_le_mul_of_nonneg_left (min_le_left _ _) hvol).trans hv
    · calc gross * min s (1 / gross) ≤ gross * (1 / gross) := mul_le_mul_of_nonneg_left (min_le_right _ _) hgross
        _ = 1 := mul_div_cancel₀ 1 h

/-! ### The volatility -/

omit [LinearOrder K] [IsStrictOrderedRing K] in
/-- The volatility of a book every name of which has a volatility. -/
theorem portfolioVol_known (fns : MathFns K) {weights volatilities : Dict Int K}
    (h : ∀ e ∈ weights.entries, (volatilities.get? e.1).isSome) :
    portfolioVol fns weights volatilities = .ok (fns.sqrt (variance volatilities weights.entries)) := by
  have hsquares : weights.entries.mapM (fun e => do
      let vol ← item volatilities e.1
      return (e.2 * vol) ^ 2) = .ok (weights.entries.map fun e => (e.2 * volOf volatilities e.1) ^ 2) := by
    rw [Except.mapM_eq_ok, List.forall₂_map_right_iff, List.forall₂_same]
    intro e he
    obtain ⟨v, hget⟩ := Option.isSome_iff_exists.mp (h e he)
    rw [item_eq_ok.mpr hget, volOf, hget]
    rfl
  unfold portfolioVol
  rw [hsquares]
  rfl

omit [LinearOrder K] [IsStrictOrderedRing K] in
theorem portfolioVol_eq (fns : MathFns K) {weights volatilities : Dict Int K}
    (h : ∀ e ∈ weights.entries, volOf volatilities e.1 ≠ 0) :
    portfolioVol fns weights volatilities = .ok (fns.sqrt (variance volatilities weights.entries)) := by
  refine portfolioVol_known fns fun e he => ?_
  have hvol := h e he
  unfold volOf at hvol
  cases hget : volatilities.get? e.1 with
  | none => exact absurd (by rw [hget]; rfl) hvol
  | some v => rfl

theorem variance_nonneg (volatilities : Dict Int K) (a : List (Int × K)) : 0 ≤ variance volatilities a := by
  refine List.sum_nonneg fun x hx => ?_
  obtain ⟨e, -, rfl⟩ := List.mem_map.mp hx
  exact sq_nonneg _

omit [LinearOrder K] [IsStrictOrderedRing K] in
theorem variance_scale (volatilities : Dict Int K) (a : List (Int × K)) (scale : K) :
    variance volatilities (a.map fun e => (e.1, e.2 * scale)) = scale ^ 2 * variance volatilities a := by
  unfold variance
  rw [List.map_map, ← List.sum_map_mul_left]
  congr 1
  refine List.map_congr_left fun e _ => ?_
  simp only [Function.comp_apply]
  ring

end Monotone

/-! ### What a sizing is built from -/

section Sources
variable {K : Type} [Field K] [LinearOrder K] {fns : MathFns K} {pooled : Dict Int (PooledForecast K)}
  {bear : Dict Int (Option BearSeverity)} {sectors : Dict Int String} {volatilities : Dict Int K} {fit : CalibrationFit K}
  {config : RiskConfig K} {scored : Dict Int (K × K)}

theorem make_position_spec {sid : Int} {token : EntityToken} {sector : String} {pooledP w : K}
    {p : ProposedPosition K} (h : ProposedPosition.make sid token sector pooledP w = .ok p) :
    p.securityId.val = sid ∧ p.entityToken = token ∧ p.sector.val = sector ∧ p.targetWeight.val = w := by
  unfold ProposedPosition.make at h
  split_ifs at h
  cases h
  exact ⟨rfl, rfl, rfl, rfl⟩

/-- A position holds the name, the weight and the sector it was built from. -/
theorem positionOf_spec {sid : Int} {w : K} {p : ProposedPosition K}
    (h : positionOf fns pooled scored sectors fit sid w = .ok p) :
    p.securityId.val = sid ∧ p.targetWeight.val = w ∧ sectors.get? sid = some p.sector.val ∧
      ∃ forecast, pooled.get? sid = some forecast ∧ p.entityToken = forecast.entityToken := by
  obtain ⟨forecast, hforecast, h⟩ := Except.bind_eq_ok.mp h
  obtain ⟨sector, hsector, h⟩ := Except.bind_eq_ok.mp h
  obtain ⟨score, -, h⟩ := Except.bind_eq_ok.mp h
  split at h
  · rename_i position hmake
    cases h
    obtain ⟨hid, htoken, hlabel, hweight⟩ := make_position_spec hmake
    refine ⟨hid, hweight, ?_, forecast, item_eq_ok.mp hforecast, htoken⟩
    rw [hlabel]
    exact item_eq_ok.mp hsector
  · cases h

theorem make_book_positions {runId : UUID} {asOf : AwareDatetime} {positions : List (ProposedPosition K)}
    {book : ProposedBook K} (h : ProposedBook.make runId asOf positions = .ok book) : book.positions = positions := by
  unfold ProposedBook.make at h
  split_ifs at h
  cases h
  rfl

theorem scoredAt_mem {horizon : Horizon} (h : scoredAt pooled horizon = .ok scored) {sid : Int} {v : K × K}
    (hv : (sid, v) ∈ scored.entries) : ∃ forecast, (sid, forecast) ∈ pooled.entries := by
  unfold scoredAt at h
  split at h
  · cases h
    obtain ⟨forecast, hforecast, -⟩ := Dict.mem_filterMap.mp hv
    exact ⟨forecast, hforecast⟩
  · cases h

theorem mem_eligible {sid : Int} {v : K × K}
    (h : (sid, v) ∈ (scored.filterMap fun sid v => if volOf volatilities sid > 0 then some v else none).entries) :
    (sid, v) ∈ scored.entries ∧ 0 < volOf volatilities sid := by
  obtain ⟨w, hw, heq⟩ := Dict.mem_filterMap.mp h
  split at heq
  · rename_i hpos
    cases heq
    exact ⟨hw, hpos⟩
  · cases heq

/-- The names of the raw weights are eligible: their volatility is positive. -/
theorem rawWeights_spec {eligible : Dict Int (K × K)} {weights : Dict Int K}
    (h : rawWeights fns eligible volatilities bear fit config = .ok weights) :
    (∀ e ∈ weights.entries, ∃ v, (e.1, v) ∈ eligible.entries) ∧
      (fit.active = false → weights.entries.length ≤ config.rankTopM) := by
  unfold rawWeights at h
  split at h
  · cases h
    refine ⟨fun e he => ?_, fun _ => ?_⟩
    · simp only [rankRaw, Dict.entries_map, Dict.entries_take, Dict.entries_sort, List.map_map] at he
      obtain ⟨x, hx, rfl⟩ := List.mem_map.mp he
      exact ⟨x.2, List.mem_mergeSort.mp (List.mem_of_mem_take hx)⟩
    · simp only [rankRaw, Dict.entries_map, Dict.entries_take, List.length_map]
      exact List.length_take_le _ _
  · rename_i hactive
    split at h
    · cases h
    · cases h
      refine ⟨fun ⟨sid, w⟩ he => ?_, fun hinactive => absurd hinactive hactive⟩
      obtain ⟨v, hv, -⟩ := Dict.mem_filterMap.mp he
      exact ⟨v, hv⟩

/-- The constraints keep the names. -/
theorem constrain_keys {raw weights : Dict Int K} (h : constrain fns raw sectors volatilities config = .ok weights) :
    weights.keys = raw.keys := by
  have hmap : ∀ (d : Dict Int K) (f : Int → K → K), (d.map f).keys = d.keys := fun d f => by
    simp only [Dict.keys, Dict.entries_map, List.map_map]
    rfl
  have hcap : ∀ (labels : List String) (d : Dict Int K) (cap : K), (labels.foldl (capSector sectors cap) d).keys = d.keys := by
    intro labels
    induction labels with
    | nil => exact fun d cap => rfl
    | cons l labels ih => exact fun d cap => (ih _ cap).trans (hmap d _)
  obtain ⟨capped, hcapped, h⟩ := Except.bind_eq_ok.mp h
  obtain ⟨names, -, hcapped⟩ := Except.bind_eq_ok.mp hcapped
  obtain ⟨vol, -, h⟩ := Except.bind_eq_ok.mp h
  rw [← Except.ok.inj h, hmap, hmap, ← Except.ok.inj hcapped, hcap, hmap]

/-- The names of a returned book have a raw weight. -/
theorem sizeCommitteeBook_raw {runId : UUID} {asOf : AwareDatetime} {book : ProposedBook K}
    (h : sizeCommitteeBook fns runId asOf pooled bear sectors volatilities fit config = .ok book) :
    ∃ scored raw, scoredAt pooled fit.horizon = .ok scored ∧
      rawWeights fns (scored.filterMap fun sid v => if volOf volatilities sid > 0 then some v else none) volatilities bear fit
        config = .ok raw ∧
      ∀ p ∈ book.positions, p.securityId.val ∈ raw.keys := by
  obtain ⟨scored, hscored, h⟩ := Except.bind_eq_ok.mp h
  obtain ⟨raw, hraw, h⟩ := Except.bind_eq_ok.mp h
  obtain ⟨weights, hweights, h⟩ := Except.bind_eq_ok.mp h
  obtain ⟨positions, hpositions, h⟩ := Except.bind_eq_ok.mp h
  refine ⟨scored, raw, hscored, hraw, fun p hp => ?_⟩
  split at h
  · rename_i b hbook
    rw [← Except.ok.inj h, make_book_positions hbook] at hp
    obtain ⟨e, he, hposition⟩ := Forall₂.exists_of_mem_right (Except.mapM_eq_ok.mp hpositions) hp
    rw [(positionOf_spec hposition).1, ← constrain_keys hweights]
    exact List.mem_map_of_mem (List.mem_mergeSort.mp (List.mem_filter.mp he).1)
  · cases h

end Sources

/-! ### The constrained weights -/

/-- `math.sqrt` and `math.exp` in exact arithmetic. -/
noncomputable def realFns : MathFns ℝ := ⟨Real.sqrt, Real.exp⟩

section Constrain
variable {sectors : Dict Int String} {volatilities raw weights : Dict Int ℝ} {config : RiskConfig ℝ}

/-- Every limit, as a property of the list of weights. -/
structure WeightsWithin (sectors : Dict Int String) (volatilities : Dict Int ℝ) (config : RiskConfig ℝ)
    (weights : List (Int × ℝ)) : Prop where
  range : ∀ e ∈ weights, 0 ≤ e.2 ∧ e.2 ≤ config.maxPosition.val
  floor : ∀ e ∈ weights, 0 < e.2 → config.minPosition.val ≤ e.2
  sector : ∀ s, sectorTotal sectors s weights ≤ config.maxSector.val
  volatility : Real.sqrt (variance volatilities weights) ≤ config.volTargetAnnual.val
  gross : (weights.map (·.2)).sum ≤ 1

/-- Scaling by the limit scale brings the volatility and the gross within their limits. -/
theorem limitScale_weights (volatilities : Dict Int ℝ) {a : List (Int × ℝ)} (ha : ∀ e ∈ a, 0 ≤ e.2) {target : ℝ} (htarget : 0 < target) :
    let scale := limitScale (Real.sqrt (variance volatilities a)) (a.map (·.2)).sum target
    (0 ≤ scale ∧ scale ≤ 1) ∧
      Real.sqrt (variance volatilities (a.map fun e => (e.1, e.2 * scale))) ≤ target ∧
      ((a.map fun e => (e.1, e.2 * scale)).map (·.2)).sum ≤ 1 := by
  intro scale
  have hgross : 0 ≤ (a.map (·.2)).sum := List.sum_nonneg fun x hx => by
    obtain ⟨e, he, rfl⟩ := List.mem_map.mp hx
    exact ha e he
  obtain ⟨h0, h1, hvol, hsum⟩ := limitScale_spec (Real.sqrt_nonneg (variance volatilities a)) hgross htarget
  refine ⟨⟨h0, h1⟩, ?_, ?_⟩
  · rw [variance_scale, Real.sqrt_mul (sq_nonneg scale), Real.sqrt_sq h0, mul_comm]
    exact hvol
  · rw [List.map_map]
    refine le_trans (le_of_eq ?_) hsum
    rw [← List.sum_map_mul_right]
    rfl

variable (sectors volatilities config) in
/-- The scale and the last floor leave every limit met, on weights in range whose sectors are within the cap. -/
theorem scaled_within
    (hrange : ∀ e ∈ weights.entries, 0 ≤ e.2 ∧ e.2 ≤ config.maxPosition.val)
    (htotal : ∀ s, sectorTotal sectors s weights.entries ≤ config.maxSector.val) :
    let scale := limitScale (Real.sqrt (variance volatilities weights.entries)) (weights.entries.map (·.2)).sum
      config.volTargetAnnual.val
    let final := weights.map fun _ w => floorWeight config.minPosition.val (w * scale)
    WeightsWithin sectors volatilities config final.entries ∧ final.keys = weights.keys := by
  intro scale final
  have hnonneg : ∀ e ∈ weights.entries, 0 ≤ e.2 := fun e he => (hrange e he).1
  obtain ⟨⟨h0, h1⟩, hv, hg⟩ := limitScale_weights volatilities hnonneg config.volTargetAnnual.property
  set scaled := weights.entries.map fun e => (e.1, e.2 * scale) with hscaled
  -- the last floor shrinks the scaled weights, and these shrink the weights given
  have hscale : Shrinks weights.entries scaled :=
    Shrinks.map fun e he => ⟨mul_nonneg (hnonneg e he) h0, mul_le_of_le_one_right (hnonneg e he) h1⟩
  have hlast : Shrinks scaled (scaled.map fun e => (e.1, floorWeight config.minPosition.val e.2)) :=
    Shrinks.map fun e he => floorWeight_shrinks (hscale.mem he).1 le_rfl
  have hfinal : scaled.map (fun e => (e.1, floorWeight config.minPosition.val e.2)) = final.entries := by
    rw [hscaled, List.map_map]
    rfl
  rw [hfinal] at hlast
  have hall := hscale.trans hlast
  refine ⟨⟨fun e he => ?_, fun e he hpos => ?_, fun s => ?_, ?_, ?_⟩, hall.keys_eq⟩
  · obtain ⟨h0, x, hx, -, hle⟩ := hall.mem he
    exact ⟨h0, hle.trans (hrange x hx).2⟩
  · obtain ⟨x, -, rfl⟩ := List.mem_map.mp he
    exact le_of_floorWeight_pos hpos
  · exact (Shrinks.sectorTotal_le hall sectors s).trans (htotal s)
  · exact (Real.sqrt_le_sqrt (Shrinks.variance_le hlast volatilities)).trans hv
  · exact (Shrinks.gross_le hlast).trans hg

/-- The constraint steps one after another leave every limit met. -/
theorem constrain_spec (hvol : ∀ e ∈ raw.entries, volOf volatilities e.1 ≠ 0)
    (hrun : constrain realFns raw sectors volatilities config = .ok weights) :
    WeightsWithin sectors volatilities config weights.entries ∧ weights.keys = raw.keys := by
  set positioned := raw.map fun _ w => min (max w 0) config.maxPosition.val with hpositioned
  have hmax : 0 ≤ config.maxPosition.val := config.maxPosition.property.1
  have hrange : ∀ e ∈ positioned.entries, 0 ≤ e.2 ∧ e.2 ≤ config.maxPosition.val := fun e he => by
    rw [hpositioned, Dict.entries_map] at he
    obtain ⟨x, -, rfl⟩ := List.mem_map.mp he
    exact ⟨le_min (le_max_right _ _) hmax, min_le_right _ _⟩
  obtain ⟨capped, hcapped, hrun⟩ := Except.bind_eq_ok.mp hrun
  obtain ⟨hshrinks, htotal⟩ := capSectors_spec config.maxSector.property.1 (fun e he => (hrange e he).1) hcapped
  set floored := capped.map fun _ w => floorWeight config.minPosition.val w with hfloored
  have hfloor : Shrinks capped.entries floored.entries :=
    Shrinks.map fun e he => floorWeight_shrinks (hshrinks.mem he).1 le_rfl
  have hall := hshrinks.trans hfloor
  have hkeys : floored.keys = raw.keys := by
    have hpos : positioned.entries.map Prod.fst = raw.entries.map Prod.fst := by
      rw [hpositioned, Dict.entries_map, List.map_map]
      rfl
    exact hall.keys_eq.trans hpos
  have hvol' : ∀ e ∈ floored.entries, volOf volatilities e.1 ≠ 0 := fun e he => by
    have hk : e.1 ∈ raw.keys := hkeys ▸ List.mem_map_of_mem he
    obtain ⟨x, hx, hxe⟩ := List.mem_map.mp hk
    rw [← hxe]
    exact hvol x hx
  obtain ⟨vol, hvolrun, hrun⟩ := Except.bind_eq_ok.mp hrun
  rw [portfolioVol_eq realFns hvol'] at hvolrun
  cases hvolrun
  cases hrun
  obtain ⟨hwithin, hfinal⟩ := scaled_within sectors volatilities config
    (fun e he => by
      obtain ⟨h0, x, hx, -, hle⟩ := hall.mem he
      exact ⟨h0, hle.trans (hrange x hx).2⟩)
    (fun s => (Shrinks.sectorTotal_le hfloor sectors s).trans (htotal s))
  exact ⟨hwithin, hfinal.trans hkeys⟩

end Constrain

/-! ### The book -/

section Book
variable {pooled : Dict Int (PooledForecast ℝ)} {bear : Dict Int (Option BearSeverity)} {sectors : Dict Int String}
  {volatilities : Dict Int ℝ} {fit : CalibrationFit ℝ} {config : RiskConfig ℝ} {scored : Dict Int (ℝ × ℝ)}

/-- The limits that a book of either sizing meets at once. -/
structure BookLimits (volatilities : Dict Int ℝ) (config : RiskConfig ℝ) (positions : List (ProposedPosition ℝ)) : Prop where
  positive : ∀ p ∈ positions, 0 < p.targetWeight.val
  atLeastMin : ∀ p ∈ positions, config.minPosition.val ≤ p.targetWeight.val
  atMostMax : ∀ p ∈ positions, p.targetWeight.val ≤ config.maxPosition.val
  sector : ∀ s : Label, (positions.map fun p => if p.sector = s then p.targetWeight.val else 0).sum ≤ config.maxSector.val
  volatility : Real.sqrt (positions.map fun p => (p.targetWeight.val * volOf volatilities p.securityId.val) ^ 2).sum ≤
    config.volTargetAnnual.val
  gross : (positions.map (·.targetWeight.val)).sum ≤ 1

/-- What a book that meets every limit at once is. -/
structure WithinLimits (volatilities : Dict Int ℝ) (fit : CalibrationFit ℝ) (config : RiskConfig ℝ)
    (positions : List (ProposedPosition ℝ)) : Prop where
  positive : ∀ p ∈ positions, 0 < p.targetWeight.val
  atLeastMin : ∀ p ∈ positions, config.minPosition.val ≤ p.targetWeight.val
  atMostMax : ∀ p ∈ positions, p.targetWeight.val ≤ config.maxPosition.val
  sector : ∀ s : Label, (positions.map fun p => if p.sector = s then p.targetWeight.val else 0).sum ≤ config.maxSector.val
  volatility : Real.sqrt (positions.map fun p => (p.targetWeight.val * volOf volatilities p.securityId.val) ^ 2).sum ≤
    config.volTargetAnnual.val
  gross : (positions.map (·.targetWeight.val)).sum ≤ 1
  ranked : fit.active = false → positions.length ≤ config.rankTopM

/-- A quantity that is nonnegative on every weight sums to no more over the held names than over all. -/
theorem held_sum_le (weights : Dict Int ℝ) (f : Int × ℝ → ℝ) (hf : ∀ e ∈ weights.entries, 0 ≤ f e) :
    (((weights.sort fun a b => decide (a.1 ≤ b.1)).entries.filter fun e => 0 < e.2).map f).sum ≤
      (weights.entries.map f).sum := by
  have hperm := List.mergeSort_perm weights.entries fun a b => decide (a.1 ≤ b.1)
  rw [← (hperm.map f).sum_eq]
  refine (List.filter_sublist.map f).sum_le_sum fun x hx => ?_
  obtain ⟨e, he, rfl⟩ := List.mem_map.mp hx
  exact hf e (hperm.mem_iff.mp he)

/-- The held entries of a book's weights, by name. -/
noncomputable def heldEntries (weights : Dict Int ℝ) : List (Int × ℝ) :=
  (weights.sort fun a b => decide (a.1 ≤ b.1)).entries.filter fun e => 0 < e.2

theorem mem_heldEntries {weights : Dict Int ℝ} {e : Int × ℝ} : e ∈ heldEntries weights ↔ e ∈ weights.entries ∧ 0 < e.2 := by
  rw [heldEntries, List.mem_filter, Dict.entries_sort, List.mem_mergeSort, decide_eq_true_iff]

/-- The position `p` holds the name of `e`, its sector and its weight. -/
def HoldsEntry (sectors : Dict Int String) (e : Int × ℝ) (p : ProposedPosition ℝ) : Prop :=
  p.securityId.val = e.1 ∧ p.targetWeight.val = e.2 ∧ sectors.get? e.1 = some p.sector.val

/-- Positions that hold the weights of names within the limits are within the limits. -/
theorem bookLimits_of_weights {weights : Dict Int ℝ} {positions : List (ProposedPosition ℝ)}
    (hw : WeightsWithin sectors volatilities config weights.entries)
    (hpos : List.Forall₂ (HoldsEntry sectors) (heldEntries weights) positions) : BookLimits volatilities config positions := by
  have hheld : ∀ p ∈ positions, ∃ e ∈ weights.entries, 0 < e.2 ∧ p.targetWeight.val = e.2 := fun p hp => by
    obtain ⟨e, he, -, hweight, -⟩ := Forall₂.exists_of_mem_right hpos hp
    obtain ⟨hmem, hpositive⟩ := mem_heldEntries.mp he
    exact ⟨e, hmem, hpositive, hweight⟩
  refine ⟨fun p hp => ?_, fun p hp => ?_, fun p hp => ?_, fun s => ?_, ?_, ?_⟩
  · obtain ⟨e, -, h0, heq⟩ := hheld p hp
    rwa [heq]
  · obtain ⟨e, he, h0, heq⟩ := hheld p hp
    rw [heq]
    exact hw.floor e he h0
  · obtain ⟨e, he, -, heq⟩ := hheld p hp
    rw [heq]
    exact (hw.range e he).2
  · rw [← Forall₂.map_eq (f := fun e => if sectors.get? e.1 = some s.val then e.2 else 0) hpos fun e p h => by
      obtain ⟨-, hweight, hsector⟩ := h
      rw [hsector, hweight]
      simp only [Option.some.injEq, Subtype.ext_iff]]
    refine (held_sum_le weights _ fun e he => ?_).trans (hw.sector s.val)
    split
    · exact (hw.range e he).1
    · exact le_rfl
  · rw [← Forall₂.map_eq (f := fun e => (e.2 * volOf volatilities e.1) ^ 2) hpos fun e p h => by
      obtain ⟨hid, hweight, -⟩ := h
      rw [hid, hweight]]
    exact (Real.sqrt_le_sqrt (held_sum_le weights _ fun e _ => sq_nonneg _)).trans hw.volatility
  · rw [← Forall₂.map_eq (f := fun e => e.2) hpos fun e p h => h.2.1.symm]
    exact (held_sum_le weights _ fun e he => (hw.range e he).1).trans hw.gross

theorem holdsEntry_of_positionOf {e : Int × ℝ} {p : ProposedPosition ℝ}
    (h : positionOf realFns pooled scored sectors fit e.1 e.2 = .ok p) : HoldsEntry sectors e p := by
  obtain ⟨hid, hweight, hsector, -⟩ := positionOf_spec h
  exact ⟨hid, hweight, hsector⟩

/-- Positions built from weights within the limits are within the limits. -/
theorem positions_within {weights : Dict Int ℝ} {positions : List (ProposedPosition ℝ)}
    (hw : WeightsWithin sectors volatilities config weights.entries)
    (hlen : fit.active = false → weights.entries.length ≤ config.rankTopM)
    (hpos : List.Forall₂ (fun e p => positionOf realFns pooled scored sectors fit e.1 e.2 = .ok p)
      (heldEntries weights) positions) : WithinLimits volatilities fit config positions := by
  obtain ⟨hpositive, hmin, hmax, hsector, hvol, hgross⟩ :=
    bookLimits_of_weights hw (hpos.imp fun _ _ h => holdsEntry_of_positionOf h)
  refine ⟨hpositive, hmin, hmax, hsector, hvol, hgross, fun hactive => ?_⟩
  rw [← hpos.length_eq]
  refine (List.length_filter_le _ _).trans ?_
  rw [Dict.entries_sort, List.length_mergeSort]
  exact hlen hactive

/-- Inputs on which the sizing has nothing to raise: every forecast pools the fit's horizon, an active fit has
    its base rate, the sectors of the eligible names are known labels, and ids and tokens identify names. -/
structure WellFormed (pooled : Dict Int (PooledForecast ℝ)) (sectors : Dict Int String) (volatilities : Dict Int ℝ)
    (fit : CalibrationFit ℝ) : Prop where
  pools : ∀ e ∈ pooled.entries, (e.2.pool fit.horizon).isSome
  baseRate : fit.active = true → fit.baseRate.isSome
  sectors : ∀ e ∈ pooled.entries, 0 < volOf volatilities e.1 →
    ∃ s, sectors.get? e.1 = some s ∧ 1 ≤ s.length ∧ s.length ≤ 128
  ids : ∀ e ∈ pooled.entries, 1 ≤ e.1
  tokens : ∀ e ∈ pooled.entries, ∀ e' ∈ pooled.entries, e.2.entityToken = e'.2.entityToken → e.1 = e'.1

/-- Whatever book the sizing returns is within the limits. -/
theorem sizeCommitteeBook_within {runId : UUID} {asOf : AwareDatetime} {book : ProposedBook ℝ}
    (h : sizeCommitteeBook realFns runId asOf pooled bear sectors volatilities fit config = .ok book) :
    WithinLimits volatilities fit config book.positions := by
  obtain ⟨scored, hscored, h⟩ := Except.bind_eq_ok.mp h
  obtain ⟨raw, hraw, h⟩ := Except.bind_eq_ok.mp h
  obtain ⟨weights, hweights, h⟩ := Except.bind_eq_ok.mp h
  obtain ⟨positions, hpositions, h⟩ := Except.bind_eq_ok.mp h
  obtain ⟨heligible, hlen⟩ := rawWeights_spec hraw
  have hvol : ∀ e ∈ raw.entries, volOf volatilities e.1 ≠ 0 := fun e he => by
    obtain ⟨v, hv⟩ := heligible e he
    exact (mem_eligible hv).2.ne'
  obtain ⟨hwithin, hkeys⟩ := constrain_spec hvol hweights
  have hlen' : fit.active = false → weights.entries.length ≤ config.rankTopM := fun hactive => by
    have hcount := congrArg List.length hkeys
    simp only [Dict.keys, List.length_map] at hcount
    rw [hcount]
    exact hlen hactive
  split at h
  · rename_i b hbook
    cases h
    rw [make_book_positions hbook]
    exact positions_within hwithin hlen' (Except.mapM_eq_ok.mp hpositions)
  · cases h

/-! ### The sizing returns -/

theorem sigmoid_mem (x : ℝ) : 0 ≤ sigmoid realFns x ∧ sigmoid realFns x ≤ 1 := by
  have hexp : ∀ y, 0 < realFns.exp y := Real.exp_pos
  unfold sigmoid
  split
  · have h := hexp (-x)
    exact ⟨by positivity, (div_le_one (by positivity)).mpr (by linarith)⟩
  · have h := hexp x
    exact ⟨by positivity, (div_le_one (by positivity)).mpr (by linarith)⟩

theorem rawWeights_ok (volatilities : Dict Int ℝ) (bear : Dict Int (Option BearSeverity)) (config : RiskConfig ℝ)
    (eligible : Dict Int (ℝ × ℝ)) (h : fit.active = true → fit.baseRate.isSome) :
    ∃ raw, rawWeights realFns eligible volatilities bear fit config = .ok raw := by
  unfold rawWeights
  split
  · exact ⟨_, rfl⟩
  · rename_i hactive
    obtain ⟨b, hb⟩ := Option.isSome_iff_exists.mp (h (Bool.eq_true_of_not_eq_false hactive))
    rw [hb]
    exact ⟨_, rfl⟩

theorem constrain_ok (config : RiskConfig ℝ) {raw : Dict Int ℝ} (hvol : ∀ e ∈ raw.entries, volOf volatilities e.1 ≠ 0)
    (hsectors : ∀ e ∈ raw.entries, (sectors.get? e.1).isSome) :
    ∃ weights, constrain realFns raw sectors volatilities config = .ok weights := by
  have hkeys : ∀ e ∈ (raw.map fun _ w => min (max w 0) config.maxPosition.val).entries, ∃ x ∈ raw.entries, x.1 = e.1 :=
    fun e he => by
      obtain ⟨x, hx, rfl⟩ := List.mem_map.mp he
      exact ⟨x, hx, rfl⟩
  have hnonneg : ∀ e ∈ (raw.map fun _ w => min (max w 0) config.maxPosition.val).entries, 0 ≤ e.2 := fun e he => by
    obtain ⟨x, -, rfl⟩ := List.mem_map.mp he
    exact le_min (le_max_right _ _) config.maxPosition.property.1
  obtain ⟨capped, hcapped⟩ := capSectors_ok config.maxSector.val fun e he => by
    obtain ⟨x, hx, hxe⟩ := hkeys e he
    rw [← hxe]
    exact hsectors x hx
  obtain ⟨hshrinks, -⟩ := capSectors_spec config.maxSector.property.1 hnonneg hcapped
  have hvol' : ∀ e ∈ (capped.map fun _ w => floorWeight config.minPosition.val w).entries,
      volOf volatilities e.1 ≠ 0 := fun e he => by
    obtain ⟨y, hy, rfl⟩ := List.mem_map.mp he
    obtain ⟨-, z, hz, hyz, -⟩ := hshrinks.mem hy
    obtain ⟨x, hx, hxz⟩ := hkeys z hz
    show volOf volatilities y.1 ≠ 0
    rw [hyz, ← hxz]
    exact hvol x hx
  exact ⟨_, Except.bind_eq_ok.mpr ⟨capped, hcapped, Except.bind_eq_ok.mpr ⟨_, portfolioVol_eq realFns hvol', rfl⟩⟩⟩

theorem make_position_ok {sid : Int} (token : EntityToken) {sector : String} {pooledP w : ℝ} (hid : 1 ≤ sid)
    (hsector : 1 ≤ sector.length ∧ sector.length ≤ 128) (hp : 0 ≤ pooledP ∧ pooledP ≤ 1)
    (hw : 0 ≤ w ∧ w ≤ maxPositionCap ℝ) : ∃ p, ProposedPosition.make sid token sector pooledP w = .ok p := by
  unfold ProposedPosition.make
  rw [dif_pos hid, dif_pos hsector, dif_pos hp, dif_pos hw]
  exact ⟨_, rfl⟩

theorem make_book_ok (runId : UUID) (asOf : AwareDatetime) {positions : List (ProposedPosition ℝ)}
    (hids : (positions.map (·.securityId)).Nodup) (htokens : (positions.map (·.entityToken)).Nodup)
    (hgross : grossExposure positions ≤ 1) : ∃ book, ProposedBook.make runId asOf positions = .ok book := by
  unfold ProposedBook.make
  rw [dif_pos ⟨hids, htokens⟩, dif_pos (hgross.trans (by norm_num))]
  exact ⟨_, rfl⟩

/-- The positions of held names are distinct names, and have distinct tokens where a token is of one name. -/
theorem held_unique {weights : Dict Int ℝ} {positions : List (ProposedPosition ℝ)} (Named : Int → EntityToken → Prop)
    (hnamed : ∀ sid sid' token, Named sid token → Named sid' token → sid = sid')
    (hpos : List.Forall₂ (fun e p => HoldsEntry sectors e p ∧ Named e.1 p.entityToken) (heldEntries weights) positions) :
    (positions.map (·.securityId)).Nodup ∧ (positions.map (·.entityToken)).Nodup := by
  have hids : (positions.map (·.securityId)).Nodup := by
    refine List.Nodup.of_map Subtype.val ?_
    rw [List.map_map]
    show (positions.map fun p => p.securityId.val).Nodup
    rw [← Forall₂.map_eq (f := Prod.fst) (g := fun p : ProposedPosition ℝ => p.securityId.val) hpos fun e p h => h.1.1.symm]
    exact (weights.sort fun a b => decide (a.1 ≤ b.1)).nodup.sublist (List.filter_sublist.map Prod.fst)
  refine ⟨hids, (hids.of_map _).map_on fun p hp q hq htoken => ?_⟩
  obtain ⟨e, -, ⟨hpid, -, -⟩, hpn⟩ := Forall₂.exists_of_mem_right hpos hp
  obtain ⟨e', -, ⟨hqid, -, -⟩, hqn⟩ := Forall₂.exists_of_mem_right hpos hq
  have hsame := hnamed e.1 e'.1 _ hpn (htoken ▸ hqn)
  exact List.inj_on_of_nodup_map hids hp hq (Subtype.ext (hpid.trans (hsame.trans hqid.symm)))

/-- The positions of held names are distinct names with distinct tokens. -/
theorem positions_unique (hwf : WellFormed pooled sectors volatilities fit) {weights : Dict Int ℝ}
    {positions : List (ProposedPosition ℝ)}
    (hpos : List.Forall₂ (fun e p => positionOf realFns pooled scored sectors fit e.1 e.2 = .ok p)
      (heldEntries weights) positions) :
    (positions.map (·.securityId)).Nodup ∧ (positions.map (·.entityToken)).Nodup := by
  refine held_unique (fun sid token => ∃ forecast, pooled.get? sid = some forecast ∧ token = forecast.entityToken)
    (fun sid sid' token h h' => ?_) (hpos.imp fun e p h => ⟨holdsEntry_of_positionOf h, (positionOf_spec h).2.2.2⟩)
  obtain ⟨f, hf, rfl⟩ := h
  obtain ⟨f', hf', heq⟩ := h'
  exact hwf.tokens (sid, f) (Dict.get?_eq_some.mp hf) (sid', f') (Dict.get?_eq_some.mp hf') heq

/-- On well-formed inputs the sizing returns a book. -/
theorem sizeCommitteeBook_ok (runId : UUID) (asOf : AwareDatetime) (hwf : WellFormed pooled sectors volatilities fit) :
    ∃ book, sizeCommitteeBook realFns runId asOf pooled bear sectors volatilities fit config = .ok book := by
  obtain ⟨scored, hscored⟩ : ∃ scored, scoredAt pooled fit.horizon = .ok scored :=
    ⟨_, if_pos (List.all_eq_true.mpr fun e he => hwf.pools e he)⟩
  obtain ⟨raw, hraw⟩ := rawWeights_ok volatilities bear config
    (scored.filterMap fun sid v => if volOf volatilities sid > 0 then some v else none) hwf.baseRate
  obtain ⟨heligible, -⟩ := rawWeights_spec hraw
  -- a name with a raw weight was scored, and its volatility is positive
  have hname : ∀ e ∈ raw.entries, 0 < volOf volatilities e.1 ∧ (∃ v, scored.get? e.1 = some v) ∧
      ∃ forecast, (e.1, forecast) ∈ pooled.entries := fun e he => by
    obtain ⟨v, hv⟩ := heligible e he
    obtain ⟨hmem, hpos⟩ := mem_eligible hv
    exact ⟨hpos, ⟨v, Dict.get?_eq_some.mpr hmem⟩, scoredAt_mem hscored hmem⟩
  have hvol : ∀ e ∈ raw.entries, volOf volatilities e.1 ≠ 0 := fun e he => (hname e he).1.ne'
  obtain ⟨weights, hweights⟩ := constrain_ok config hvol fun e he => by
    obtain ⟨hpos, -, forecast, hforecast⟩ := hname e he
    obtain ⟨s, hs, -⟩ := hwf.sectors (e.1, forecast) hforecast hpos
    rw [hs]
    rfl
  obtain ⟨hwithin, hkeys⟩ := constrain_spec hvol hweights
  have hposition : ∀ e ∈ heldEntries weights,
      ∃ p, positionOf realFns pooled scored sectors fit e.1 e.2 = .ok p := fun e he => by
    have hmem := (mem_heldEntries.mp he).1
    obtain ⟨x, hx, hxe⟩ := List.mem_map.mp (hkeys ▸ List.mem_map_of_mem hmem : e.1 ∈ raw.keys)
    obtain ⟨hpos, ⟨v, hv⟩, forecast, hforecast⟩ := hname x hx
    rw [hxe] at hpos hv hforecast
    obtain ⟨s, hs, hlabel⟩ := hwf.sectors (e.1, forecast) hforecast hpos
    obtain ⟨p, hp⟩ := make_position_ok forecast.entityToken (hwf.ids (e.1, forecast) hforecast) hlabel
      (sigmoid_mem (fit.alpha + fit.beta * v.1))
      ⟨(hwithin.range e hmem).1, (hwithin.range e hmem).2.trans config.maxPosition_le⟩
    refine ⟨p, Except.bind_eq_ok.mpr ⟨forecast, item_eq_ok.mpr (Dict.get?_eq_some.mpr hforecast), ?_⟩⟩
    refine Except.bind_eq_ok.mpr ⟨s, item_eq_ok.mpr hs, Except.bind_eq_ok.mpr ⟨v, item_eq_ok.mpr hv, ?_⟩⟩
    rw [hp]
    rfl
  obtain ⟨positions, hpositions⟩ := Except.mapM_ok_of_forall hposition
  have hpos := Except.mapM_eq_ok.mp hpositions
  obtain ⟨hids, htokens⟩ := positions_unique hwf hpos
  have hgross : grossExposure positions ≤ 1 := by
    unfold grossExposure
    rw [← Forall₂.map_eq (f := fun e => e.2) hpos fun e p h => ((positionOf_spec h).2.1).symm]
    exact (held_sum_le weights _ fun e he => (hwithin.range e he).1).trans hwithin.gross
  obtain ⟨book, hbook⟩ := make_book_ok runId asOf hids htokens hgross
  refine ⟨book, Except.bind_eq_ok.mpr ⟨scored, hscored, Except.bind_eq_ok.mpr ⟨raw, hraw, ?_⟩⟩⟩
  refine Except.bind_eq_ok.mpr ⟨weights, hweights, Except.bind_eq_ok.mpr ⟨positions, hpositions, ?_⟩⟩
  rw [hbook]
  rfl

/-- The committee book meets every limit at once, and on well-formed inputs there is one. -/
theorem sizeCommitteeBook_meets_limits (runId : UUID) (asOf : AwareDatetime) (pooled : Dict Int (PooledForecast ℝ))
    (bear : Dict Int (Option BearSeverity)) (sectors : Dict Int String) (volatilities : Dict Int ℝ)
    (fit : CalibrationFit ℝ) (config : RiskConfig ℝ) :
    (∀ book, sizeCommitteeBook realFns runId asOf pooled bear sectors volatilities fit config = .ok book →
      WithinLimits volatilities fit config book.positions) ∧
    (WellFormed pooled sectors volatilities fit →
      ∃ book, sizeCommitteeBook realFns runId asOf pooled bear sectors volatilities fit config = .ok book) :=
  ⟨fun _ h => sizeCommitteeBook_within h, fun hwf => sizeCommitteeBook_ok runId asOf hwf⟩

/-! ### A book of one name -/

/-- The values of `config/risk.yaml`. -/
noncomputable def riskYaml : RiskConfig ℝ where
  longOnly := true
  maxPosition := ⟨0.08, by norm_num⟩
  maxSector := ⟨0.30, by norm_num⟩
  volTargetAnnual := ⟨0.12, by norm_num⟩
  minPosition := ⟨0.01, by norm_num⟩
  entryThreshold := ⟨0.56, by norm_num⟩
  k := ⟨0.02, by norm_num⟩
  dispersionLambda := ⟨0.5, by norm_num⟩
  rankTopM := 8
  edgeHurdle := ⟨0.04, by norm_num⟩
  committeeK := ⟨0.5, by norm_num⟩
  committeeDispersionLambda := ⟨0, nonNegative_zero ℝ⟩
  bearMultiplier
    | .low => ⟨1, by norm_num⟩
    | .med => ⟨0.75, by norm_num⟩
    | .high => ⟨0.5, by norm_num⟩
  cioVetoBudget := ⟨0.20, by norm_num⟩
  killSwitchDailyLoss := ⟨0.03, by norm_num⟩
  modeledCostBps := ⟨5, by norm_num⟩
  rankTopM_pos := Samples.eight_pos
  longOnly_true := rfl
  minPosition_pos := by norm_num
  minPosition_lt := by norm_num
  maxPosition_le := by norm_num [maxPositionCap]
  maxSector_ge := by norm_num
  entryThreshold_range := by norm_num

noncomputable def oneForecast : PooledForecast ℝ where
  entityToken := ⟨"TICKER_11", Samples.token_eleven⟩
  pools := [⟨.d21, 1, ⟨0, by norm_num⟩, ⟨0, nonNegative_zero ℝ⟩, [⟨.value, ⟨1, Samples.nonNegative_one ℝ⟩⟩], by simp, by simp, by decide⟩]
  pools_nonempty := by simp

noncomputable def onePooled : Dict Int (PooledForecast ℝ) := ⟨[(1, oneForecast)], by simp⟩

noncomputable def oneVolatility : Dict Int ℝ := ⟨[(1, 0.2)], by simp⟩

def oneSector : Dict Int String := ⟨[(1, "Energy")], by simp⟩

def inactiveFit : CalibrationFit ℝ := ⟨.d21, 0, 1, false, 3, 100, none⟩

theorem one_wellFormed : WellFormed onePooled oneSector oneVolatility inactiveFit where
  pools e he := by
    rw [List.mem_singleton.mp he]
    rfl
  baseRate h := by cases h
  sectors e he _ := by
    rw [List.mem_singleton.mp he]
    exact ⟨"Energy", rfl, by decide⟩
  ids e he := by rw [List.mem_singleton.mp he]
  tokens e he e' he' _ := by rw [List.mem_singleton.mp he, List.mem_singleton.mp he']

theorem sizeCommitteeBook_meets_limits_one : ∃ book, sizeCommitteeBook realFns ⟨0⟩ ⟨0, 0⟩ onePooled Dict.empty
    oneSector oneVolatility inactiveFit riskYaml = .ok book ∧
      WithinLimits oneVolatility inactiveFit riskYaml book.positions := by
  obtain ⟨hlimits, hreturns⟩ := sizeCommitteeBook_meets_limits ⟨0⟩ ⟨0, 0⟩ onePooled Dict.empty oneSector
    oneVolatility inactiveFit riskYaml
  obtain ⟨book, hbook⟩ := hreturns one_wellFormed
  exact ⟨book, hbook, hlimits book hbook⟩

end Book

end Sizing
end AsymmetricCommittee
