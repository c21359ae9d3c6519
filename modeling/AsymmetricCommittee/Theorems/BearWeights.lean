import AsymmetricCommittee.Theorems.SizingLimits

/-! A worse bear case never adds weight. Lowering one raw weight loosens the scale of its sector and the scales that
    bring the book to the volatility target and to the gross limit, but each scale multiplies a weight that is in it
    already, and the other names, which only gain, tighten them again. -/

namespace AsymmetricCommittee
namespace Sizing

/-! ### The scales -/

section Scales
variable {K : Type} [Field K] [LinearOrder K] [IsStrictOrderedRing K] {cap total total' w w' rest : K}

/-- The scale of a sector pass, by the total of the sector. -/
def sectorFactor (cap total : K) : K := if total ≠ 0 then min 1 (cap / total) else 1

theorem sectorFactor_nonneg (hcap : 0 ≤ cap) (htotal : 0 ≤ total) : 0 ≤ sectorFactor cap total :=
  (sectorScale hcap htotal).1

theorem sectorFactor_le_one (hcap : 0 ≤ cap) (htotal : 0 ≤ total) : sectorFactor cap total ≤ 1 :=
  (sectorScale hcap htotal).2.1

/-- A larger total is scaled more. -/
theorem sectorFactor_anti (hcap : 0 ≤ cap) (h0 : 0 ≤ total') (hle : total' ≤ total) :
    sectorFactor cap total ≤ sectorFactor cap total' := by
  by_cases h : total' = 0
  · have hone : sectorFactor cap total' = 1 := if_neg (not_not_intro h)
    rw [hone]
    exact sectorFactor_le_one hcap (h0.trans hle)
  · have hpos' : 0 < total' := lt_of_le_of_ne h0 (Ne.symm h)
    have hpos : 0 < total := hpos'.trans_le hle
    rw [sectorFactor, sectorFactor, if_pos hpos.ne', if_pos h]
    exact min_le_min_left 1 (div_le_div_of_nonneg_left hcap hpos' hle)

/-- A smaller weight is no more after the scale that it loosens. -/
theorem mul_sectorFactor_le (hcap : 0 ≤ cap) (h0 : 0 ≤ w') (hle : w' ≤ w) (hrest : 0 ≤ rest) :
    w' * sectorFactor cap (w' + rest) ≤ w * sectorFactor cap (w + rest) := by
  have hw : 0 ≤ w := h0.trans hle
  by_cases h : w' = 0
  · rw [h, zero_mul]
    exact mul_nonneg hw (sectorFactor_nonneg hcap (add_nonneg hw hrest))
  · have hpos' : 0 < w' := lt_of_le_of_ne h0 (Ne.symm h)
    have htotal' : 0 < w' + rest := add_pos_of_pos_of_nonneg hpos' hrest
    have htotal : 0 < w + rest := add_pos_of_pos_of_nonneg (hpos'.trans_le hle) hrest
    rw [sectorFactor, sectorFactor, if_pos htotal'.ne', if_pos htotal.ne']
    have hscaled : w' * (cap / (w' + rest)) ≤ w * (cap / (w + rest)) := by
      rw [← mul_div_assoc, ← mul_div_assoc, div_le_div_iff₀ htotal' htotal]
      have hcross : w' * (w + rest) ≤ w * (w' + rest) := by nlinarith
      calc w' * cap * (w + rest) = cap * (w' * (w + rest)) := by ring
        _ ≤ cap * (w * (w' + rest)) := mul_le_mul_of_nonneg_left hcross hcap
        _ = w * cap * (w' + rest) := by ring
    rw [mul_min_of_nonneg _ _ h0, mul_min_of_nonneg _ _ hw, mul_one, mul_one]
    exact min_le_min hle hscaled

end Scales

section LimitScale
variable {w w' vol vol' gross gross' target : ℝ}

/-- The scale to the limits, where there is something to scale. -/
theorem limitScale_pos (hvol : 0 < vol) (hgross : 0 < gross) (target : ℝ) :
    limitScale vol gross target = min (min 1 (target / vol)) (1 / gross) := by
  rw [limitScale, if_pos hgross.ne', if_pos hvol.ne']

/-- A smaller weight is no more after the scale to the limits, when its share of the volatility and of the gross is no
    more. -/
theorem mul_limitScale_le (htarget : 0 < target) (h0 : 0 ≤ w') (hle : w' ≤ w) (hvol : 0 ≤ vol) (hgross : 0 ≤ gross)
    (hpos : 0 < w' → 0 < vol ∧ 0 < vol' ∧ 0 < gross ∧ 0 < gross') (hvols : w' * vol ≤ w * vol')
    (hgrosses : w' * gross ≤ w * gross') :
    w' * limitScale vol' gross' target ≤ w * limitScale vol gross target := by
  have hw : 0 ≤ w := h0.trans hle
  by_cases h : w' = 0
  · rw [h, zero_mul]
    exact mul_nonneg hw (limitScale_spec hvol hgross htarget).1
  · obtain ⟨hv, hv', hg, hg'⟩ := hpos (lt_of_le_of_ne h0 (Ne.symm h))
    rw [limitScale_pos hv hg, limitScale_pos hv' hg', mul_min_of_nonneg _ _ h0, mul_min_of_nonneg _ _ h0,
      mul_min_of_nonneg _ _ hw, mul_min_of_nonneg _ _ hw, mul_one, mul_one]
    refine min_le_min (min_le_min hle ?_) ?_
    · rw [← mul_div_assoc, ← mul_div_assoc, div_le_div_iff₀ hv' hv]
      calc w' * target * vol = target * (w' * vol) := by ring
        _ ≤ target * (w * vol') := mul_le_mul_of_nonneg_left hvols htarget.le
        _ = w * target * vol' := by ring
    · rw [← mul_div_assoc, ← mul_div_assoc, div_le_div_iff₀ hg' hg, mul_one, mul_one]
      exact hgrosses

/-- The share of a weight in the square root of a sum of squares. -/
theorem mul_sqrt_le {σ q q' : ℝ} (h0 : 0 ≤ w') (hle : w' ≤ w) (hq : 0 ≤ q) (hqq : q ≤ q') :
    w' * Real.sqrt ((w * σ) ^ 2 + q) ≤ w * Real.sqrt ((w' * σ) ^ 2 + q') := by
  have hw : 0 ≤ w := h0.trans hle
  have hsq : w' ^ 2 * ((w * σ) ^ 2 + q) ≤ w ^ 2 * ((w' * σ) ^ 2 + q') := by
    have hrest : w' ^ 2 * q ≤ w ^ 2 * q' := mul_le_mul (pow_le_pow_left₀ h0 hle 2) hqq hq (sq_nonneg w)
    have hown : w' ^ 2 * (w * σ) ^ 2 = w ^ 2 * (w' * σ) ^ 2 := by ring
    rw [mul_add, mul_add, hown]
    exact add_le_add_right hrest _
  calc w' * Real.sqrt ((w * σ) ^ 2 + q) = Real.sqrt (w' ^ 2 * ((w * σ) ^ 2 + q)) := by
        rw [Real.sqrt_mul (sq_nonneg w'), Real.sqrt_sq h0]
    _ ≤ Real.sqrt (w ^ 2 * ((w' * σ) ^ 2 + q')) := Real.sqrt_le_sqrt hsq
    _ = w * Real.sqrt ((w' * σ) ^ 2 + q') := by rw [Real.sqrt_mul (sq_nonneg w), Real.sqrt_sq hw]

end LimitScale

/-! ### The sector caps -/

section Caps
variable {K : Type} [Field K] [LinearOrder K] {sectors : Dict Int String} {cap : K}

theorem capSector_total_other {sector other : String} (hne : other ≠ sector) (weights : Dict Int K) :
    sectorTotal sectors other (capSector sectors cap weights sector).entries = sectorTotal sectors other weights.entries := by
  unfold capSector sectorTotal
  rw [Dict.entries_map, List.map_map]
  congr 1
  refine List.map_congr_left fun e _ => ?_
  simp only [Function.comp_apply]
  by_cases h : sectors.get? e.1 = some other
  · have hnot : sectors.get? e.1 ≠ some sector := fun h' => hne (Option.some.inj (h.symm.trans h'))
    rw [if_pos h, if_pos h, if_neg hnot]
  · rw [if_neg h, if_neg h]

/-- The loop scales each weight once, by the total that its sector had. -/
theorem capSector_foldl_eq (labels : List String) (hlabels : labels.Nodup) (weights : Dict Int K) :
    (labels.foldl (capSector sectors cap) weights).entries = weights.entries.map fun e =>
      (e.1, match sectors.get? e.1 with
        | some s => if s ∈ labels then e.2 * sectorFactor cap (sectorTotal sectors s weights.entries) else e.2
        | none => e.2) := by
  induction labels generalizing weights with
  | nil =>
    refine (List.map_id _).symm.trans (List.map_congr_left fun e _ => ?_)
    cases sectors.get? e.1 with
    | none => rfl
    | some s => simp
  | cons l labels ih =>
    obtain ⟨hl, hlabels⟩ := List.nodup_cons.mp hlabels
    rw [List.foldl_cons, ih hlabels]
    show ((weights.entries.map _).map _) = _
    rw [List.map_map]
    refine List.map_congr_left fun e _ => ?_
    simp only [Function.comp_apply]
    cases hs : sectors.get? e.1 with
    | none => simp
    | some s =>
      by_cases hsl : s = l
      · subst hsl
        simp only [hl, if_false, if_true, List.mem_cons_self]
        rfl
      · have hne : (some s : Option String) ≠ some l := fun h => hsl (Option.some.inj h)
        simp only [if_neg hne, List.mem_cons, hsl, false_or, capSector_total_other hsl]

/-- `_cap_sectors`: each weight is scaled by the total of its sector. -/
theorem capSectors_entries {weights capped : Dict Int K} (h : capSectors weights sectors cap = .ok capped) :
    capped.entries = weights.entries.map fun e => (e.1, match sectors.get? e.1 with
      | some s => e.2 * sectorFactor cap (sectorTotal sectors s weights.entries)
      | none => e.2) := by
  obtain ⟨names, hnames, hfold⟩ := Except.bind_eq_ok.mp h
  rw [← Except.ok.inj hfold, capSector_foldl_eq _ ((List.mergeSort_perm _ _).nodup_iff.mpr (List.nodup_dedup names))]
  refine List.map_congr_left fun e he => ?_
  cases hs : sectors.get? e.1 with
  | none => rfl
  | some s =>
    obtain ⟨n, hn, hitem⟩ := Forall₂.exists_of_mem_left (Except.mapM_eq_ok.mp hnames) (List.mem_map_of_mem he)
    rw [item_eq_ok, hs] at hitem
    cases hitem
    simp only [List.mem_mergeSort, List.mem_dedup, hn, if_true]

end Caps

/-! ### The raw weights -/

section Raw
variable {K : Type} [Field K] [LinearOrder K] {bear bear' : Dict Int (Option BearSeverity)} {config : RiskConfig K}

/-- Two raw weights of a name that differ in its bear multiplier only. -/
def SameButBear (config : RiskConfig K) (bear bear' : Dict Int (Option BearSeverity)) (x y : Int × K) : Prop :=
  y.1 = x.1 ∧ ∃ base, x.2 = base * sBear config bear x.1 ∧ y.2 = base * sBear config bear' x.1

theorem rankRaw_bear (eligible : Dict Int (K × K)) (volatilities : Dict Int K) :
    List.Forall₂ (SameButBear config bear bear') (rankRaw eligible volatilities bear config).entries
      (rankRaw eligible volatilities bear' config).entries := by
  simp only [rankRaw, Dict.entries_map]
  rw [List.forall₂_map_left_iff, List.forall₂_map_right_iff, List.forall₂_same]
  exact fun e _ => ⟨rfl, _, rfl, rfl⟩

theorem calibratedRaw_bear (fns : MathFns K) (eligible : Dict Int (K × K)) (volatilities : Dict Int K)
    (fit : CalibrationFit K) (baseRate : K) :
    List.Forall₂ (SameButBear config bear bear') (calibratedRaw fns eligible volatilities bear fit baseRate config).entries
      (calibratedRaw fns eligible volatilities bear' fit baseRate config).entries := by
  refine List.rel_filterMap (R := Eq) (P := SameButBear config bear bear') ?_ (List.forall₂_refl eligible.entries)
  rintro e _ rfl
  dsimp only
  split
  · exact .some ⟨rfl, _, rfl, rfl⟩
  · exact .none

theorem rawWeights_bear {fns : MathFns K} {eligible : Dict Int (K × K)} {volatilities raw raw' : Dict Int K}
    {fit : CalibrationFit K} (h : rawWeights fns eligible volatilities bear fit config = .ok raw)
    (h' : rawWeights fns eligible volatilities bear' fit config = .ok raw') :
    List.Forall₂ (SameButBear config bear bear') raw.entries raw'.entries := by
  unfold rawWeights at h h'
  split at h
  · next hactive =>
    rw [if_pos hactive] at h'
    rw [← Except.ok.inj h, ← Except.ok.inj h']
    exact rankRaw_bear eligible volatilities
  · next hactive =>
    rw [if_neg hactive] at h'
    cases hrate : fit.baseRate with
    | none =>
      rw [hrate] at h
      cases h
    | some baseRate =>
      rw [hrate] at h h'
      rw [← Except.ok.inj h, ← Except.ok.inj h']
      exact calibratedRaw_bear fns eligible volatilities fit baseRate.val

variable [IsStrictOrderedRing K] {sid : Int}

/-- The position cap keeps the order. -/
theorem clip_mul_le {base s s' cap : K} (h0 : 0 ≤ s') (hle : s' ≤ s) :
    min (max (base * s') 0) cap ≤ min (max (base * s) 0) cap := by
  refine min_le_min_right cap ?_
  by_cases hbase : 0 ≤ base
  · exact max_le_max_right 0 (mul_le_mul_of_nonneg_left hle hbase)
  · have hneg : base * s' ≤ 0 := mul_nonpos_of_nonpos_of_nonneg (le_of_not_ge hbase) h0
    rw [max_eq_right hneg]
    exact le_max_right _ _

/-- After the position cap only the weight of the name itself is lowered. -/
theorem clipped_lowers (hothers : ∀ other, other ≠ sid → sBear config bear' other = sBear config bear other)
    (hlower : sBear config bear' sid ≤ sBear config bear sid) {raw raw' : Dict Int K}
    (h : List.Forall₂ (SameButBear config bear bear') raw.entries raw'.entries) (cap : K) :
    LowersOne sid (fun v v' => v' = v) (raw.map fun _ w => min (max w 0) cap).entries
      (raw'.map fun _ w => min (max w 0) cap).entries := by
  simp only [Dict.entries_map, LowersOne]
  rw [List.forall₂_map_left_iff, List.forall₂_map_right_iff]
  refine h.imp ?_
  rintro ⟨key, w⟩ ⟨key', w'⟩ ⟨hkey, base, hw, hw'⟩
  obtain rfl : key' = key := hkey
  dsimp only at hw hw'
  subst hw hw'
  refine ⟨rfl, ?_, fun hne => ?_⟩
  · rintro rfl
    exact clip_mul_le (config.bearMultiplier _).property.1 hlower
  · show min (max (base * sBear config bear' key') 0) cap = min (max (base * sBear config bear key') 0) cap
    rw [hothers key' hne]

end Raw

/-! ### The constraints -/

section Lowered
variable {sid : Int} {sectors : Dict Int String} {volatilities raw raw' weights weights' : Dict Int ℝ} {config : RiskConfig ℝ}

theorem floorWeight_mono {minPosition v w : ℝ} (hle : v ≤ w) (hw : 0 ≤ w) :
    floorWeight minPosition v ≤ floorWeight minPosition w := by
  unfold floorWeight
  by_cases hv : minPosition ≤ v
  · rw [if_pos hv, if_pos (hv.trans hle)]
    exact hle
  · rw [if_neg hv]
    split
    · exact hw
    · exact le_rfl

/-- What the constraints make of the raw weights, step by step. -/
theorem constrain_entries (hvol : ∀ e ∈ raw.entries, volOf volatilities e.1 ≠ 0)
    (h : constrain realFns raw sectors volatilities config = .ok weights) :
    ∃ capped, capSectors (raw.map fun _ w => min (max w 0) config.maxPosition.val) sectors config.maxSector.val = .ok capped ∧
      ∃ floored, floored = capped.map (fun _ w => floorWeight config.minPosition.val w) ∧
        weights = floored.map fun _ w => floorWeight config.minPosition.val
          (w * limitScale (Real.sqrt (variance volatilities floored.entries)) (floored.entries.map (·.2)).sum
            config.volTargetAnnual.val) := by
  obtain ⟨capped, hcapped, h⟩ := Except.bind_eq_ok.mp h
  obtain ⟨vol, hvolrun, h⟩ := Except.bind_eq_ok.mp h
  refine ⟨capped, hcapped, _, rfl, ?_⟩
  have hknown : ∀ e ∈ (capped.map fun _ w => floorWeight config.minPosition.val w).entries, volOf volatilities e.1 ≠ 0 := by
    intro e he
    rw [Dict.entries_map, capSectors_entries hcapped, Dict.entries_map, List.map_map, List.map_map] at he
    obtain ⟨x, hx, rfl⟩ := List.mem_map.mp he
    exact hvol x hx
  rw [portfolioVol_eq realFns hknown] at hvolrun
  rw [← Except.ok.inj h, ← Except.ok.inj hvolrun]
  rfl

/-- A sum over the names is the term of one of them and the sum over the others. -/
theorem sectorTotal_eq_add {a : Dict Int ℝ} {w : ℝ} {s : String} (ha : (sid, w) ∈ a.entries) (hs : sectors.get? sid = some s) :
    sectorTotal sectors s a.entries = w + sectorTotal sectors s (a.entries.filter fun e => e.1 ≠ sid) := by
  rw [sectorTotal, sum_eq_term_add_others a.nodup ha, if_pos hs]
  rfl

/-- The sector caps: the name's own weight is no more, and every other no less. -/
theorem capped_lowers {a a' capped capped' : Dict Int ℝ} {cap : ℝ} (hcap : 0 ≤ cap)
    (h : LowersOne sid (fun v v' => v' = v) a.entries a'.entries) (hnonneg : ∀ e ∈ a'.entries, 0 ≤ e.2)
    (hcapped : capSectors a sectors cap = .ok capped) (hcapped' : capSectors a' sectors cap = .ok capped') :
    LowersOne sid (· ≤ ·) capped.entries capped'.entries := by
  have hshrinks : Shrinks a.entries a'.entries := h.shrinks (fun _ _ heq => heq.le) hnonneg
  rw [capSectors_entries hcapped, capSectors_entries hcapped']
  refine h.map ?_ ?_
  · rintro ⟨key, w⟩ hx ⟨key', w'⟩ hy hkey hkey' hle
    obtain rfl : key = sid := hkey
    obtain rfl : key' = key := hkey'
    dsimp only at hle ⊢
    cases hs : sectors.get? key' with
    | none => exact hle
    | some s =>
      -- the other names of the sector weigh the same
      have hrest : sectorTotal sectors s (a'.entries.filter fun e => e.1 ≠ key') =
          sectorTotal sectors s (a.entries.filter fun e => e.1 ≠ key') := by
        refine congrArg List.sum (Forall₂.map_eq h.others ?_).symm
        rintro x y ⟨hkey, hw⟩
        rw [hkey, hw]
      have hrest0 : 0 ≤ sectorTotal sectors s (a'.entries.filter fun e => e.1 ≠ key') :=
        sectorTotal_nonneg sectors (fun e he => hnonneg e (List.mem_filter.mp he).1) s
      dsimp only
      rw [sectorTotal_eq_add hx hs, sectorTotal_eq_add hy hs, ← hrest]
      exact mul_sectorFactor_le hcap (hnonneg _ hy) hle hrest0
  · rintro ⟨key, w⟩ hx ⟨key', w'⟩ hy hkey hne heq
    obtain rfl : key' = key := hkey
    obtain rfl : w' = w := heq
    dsimp only
    cases hs : sectors.get? key' with
    | none => exact le_rfl
    | some s => exact mul_le_mul_of_nonneg_left (sectorFactor_anti hcap (sectorTotal_nonneg sectors hnonneg s)
        (Shrinks.sectorTotal_le hshrinks sectors s)) (hnonneg _ hy)

/-- Sums of a quantity that grows with each weight, over names none of which is less. -/
theorem others_sum_le {a b : List (Int × ℝ)} (h : List.Forall₂ (fun x y => y.1 = x.1 ∧ x.2 ≤ y.2) a b)
    (hnonneg : ∀ e ∈ a, 0 ≤ e.2) {f : Int × ℝ → ℝ} (hf : ∀ key v w, 0 ≤ v → v ≤ w → f (key, v) ≤ f (key, w)) :
    (a.map f).sum ≤ (b.map f).sum := by
  induction h with
  | nil => exact le_rfl
  | @cons x y a b hxy _ ih =>
    obtain ⟨key, v⟩ := x
    obtain ⟨key', w⟩ := y
    obtain ⟨hkey, hle⟩ := hxy
    obtain rfl : key' = key := hkey
    rw [List.map_cons, List.map_cons, List.sum_cons, List.sum_cons]
    exact add_le_add (hf key' v w (hnonneg _ List.mem_cons_self) hle) (ih fun e he => hnonneg e (List.mem_cons_of_mem _ he))

/-- The scale to the limits: a name that weighs no more, among others that weigh no less, has no more after it. -/
theorem scaled_le {a b : Dict Int ℝ} {w w' target : ℝ} (htarget : 0 < target) (h : LowersOne sid (· ≤ ·) a.entries b.entries)
    (ha : ∀ e ∈ a.entries, 0 ≤ e.2) (hb : ∀ e ∈ b.entries, 0 ≤ e.2) (hvol : 0 < volOf volatilities sid)
    (hw : (sid, w) ∈ a.entries) (hw' : (sid, w') ∈ b.entries) (hle : w' ≤ w) :
    w' * limitScale (Real.sqrt (variance volatilities b.entries)) (b.entries.map (·.2)).sum target ≤
      w * limitScale (Real.sqrt (variance volatilities a.entries)) (a.entries.map (·.2)).sum target := by
  have h0 : 0 ≤ w' := hb _ hw'
  have hothers : ∀ e ∈ a.entries.filter fun e => e.1 ≠ sid, 0 ≤ e.2 := fun e he => ha e (List.mem_filter.mp he).1
  have hvariance := others_sum_le h.others hothers (f := fun e => (e.2 * volOf volatilities e.1) ^ 2) fun key v w hv hle => by
    rw [mul_pow, mul_pow]
    exact mul_le_mul_of_nonneg_right (pow_le_pow_left₀ hv hle 2) (sq_nonneg _)
  have hgross := others_sum_le h.others hothers (f := fun e => e.2) fun _ _ _ _ hle => hle
  have hvariance0 := variance_nonneg volatilities (a.entries.filter fun e => e.1 ≠ sid)
  have hgross0 : 0 ≤ ((a.entries.filter fun e => e.1 ≠ sid).map (·.2)).sum := List.sum_nonneg fun x hx => by
    obtain ⟨e, he, rfl⟩ := List.mem_map.mp hx
    exact hothers e he
  have hsplit : ∀ {d : Dict Int ℝ} {v : ℝ}, (sid, v) ∈ d.entries →
      variance volatilities d.entries = (v * volOf volatilities sid) ^ 2 + variance volatilities (d.entries.filter fun e => e.1 ≠ sid) ∧
        (d.entries.map (·.2)).sum = v + ((d.entries.filter fun e => e.1 ≠ sid).map (·.2)).sum :=
    fun {d v} hmem => ⟨sum_eq_term_add_others d.nodup hmem _, sum_eq_term_add_others d.nodup hmem _⟩
  rw [(hsplit hw).1, (hsplit hw).2, (hsplit hw').1, (hsplit hw').2]
  refine mul_limitScale_le htarget h0 hle (Real.sqrt_nonneg _) (add_nonneg (h0.trans hle) hgross0) (fun hpos => ?_)
    (mul_sqrt_le h0 hle hvariance0 hvariance) ?_
  · have hw0 : 0 < w := hpos.trans_le hle
    have hvariance' := hvariance0.trans hvariance
    have hgross' := hgross0.trans hgross
    refine ⟨Real.sqrt_pos.mpr ?_, Real.sqrt_pos.mpr ?_, ?_, ?_⟩
    · exact add_pos_of_pos_of_nonneg (pow_pos (mul_pos hw0 hvol) 2) hvariance0
    · exact add_pos_of_pos_of_nonneg (pow_pos (mul_pos hpos hvol) 2) hvariance'
    · exact add_pos_of_pos_of_nonneg hw0 hgross0
    · exact add_pos_of_pos_of_nonneg hpos hgross'
  · have hrest := mul_le_mul hle hgross hgross0 (h0.trans hle)
    calc w' * (w + ((a.entries.filter fun e => e.1 ≠ sid).map (·.2)).sum) =
        w * w' + w' * ((a.entries.filter fun e => e.1 ≠ sid).map (·.2)).sum := by ring
      _ ≤ w * w' + w * ((b.entries.filter fun e => e.1 ≠ sid).map (·.2)).sum := add_le_add_right hrest _
      _ = w * (w' + ((b.entries.filter fun e => e.1 ≠ sid).map (·.2)).sum) := by ring

/-- The constraints: the final weight of the name is no more. -/
theorem constrain_lowers {bear bear' : Dict Int (Option BearSeverity)} (hsid : 0 < volOf volatilities sid)
    (hvol : ∀ e ∈ raw.entries, volOf volatilities e.1 ≠ 0) (hvol' : ∀ e ∈ raw'.entries, volOf volatilities e.1 ≠ 0)
    (hraw : List.Forall₂ (SameButBear config bear bear') raw.entries raw'.entries)
    (hothers : ∀ other, other ≠ sid → sBear config bear' other = sBear config bear other)
    (hlower : sBear config bear' sid ≤ sBear config bear sid)
    (hrun : constrain realFns raw sectors volatilities config = .ok weights)
    (hrun' : constrain realFns raw' sectors volatilities config = .ok weights') {v' : ℝ} (hv' : (sid, v') ∈ weights'.entries) :
    ∃ v, (sid, v) ∈ weights.entries ∧ v' ≤ v := by
  obtain ⟨capped, hcapped, floored, hfloored, rfl⟩ := constrain_entries hvol hrun
  obtain ⟨capped', hcapped', floored', hfloored', rfl⟩ := constrain_entries hvol' hrun'
  have hclip : ∀ {d : Dict Int ℝ}, ∀ e ∈ (d.map fun _ w => min (max w 0) config.maxPosition.val).entries, 0 ≤ e.2 := by
    intro d e he
    rw [Dict.entries_map] at he
    obtain ⟨x, -, rfl⟩ := List.mem_map.mp he
    exact le_min (le_max_right _ _) config.maxPosition.property.1
  have hcaps := capped_lowers config.maxSector.property.1 (clipped_lowers hothers hlower hraw config.maxPosition.val) hclip
    hcapped hcapped'
  have hcap0 := (capSectors_spec config.maxSector.property.1 hclip hcapped).1
  have hcap0' := (capSectors_spec config.maxSector.property.1 hclip hcapped').1
  have hfloor : LowersOne sid (· ≤ ·) floored.entries floored'.entries := by
    rw [hfloored, hfloored']
    refine hcaps.map ?_ ?_
    · exact fun x hx y hy _ _ hle => floorWeight_mono hle (hcap0.mem hx).1
    · exact fun x hx y hy _ _ hle => floorWeight_mono hle (hcap0'.mem hy).1
  have hnonneg : ∀ e ∈ floored.entries, 0 ≤ e.2 := by
    intro e he
    rw [hfloored, Dict.entries_map] at he
    obtain ⟨x, hx, rfl⟩ := List.mem_map.mp he
    exact (floorWeight_shrinks (hcap0.mem hx).1 le_rfl).1
  have hnonneg' : ∀ e ∈ floored'.entries, 0 ≤ e.2 := by
    intro e he
    rw [hfloored', Dict.entries_map] at he
    obtain ⟨x, hx, rfl⟩ := List.mem_map.mp he
    exact (floorWeight_shrinks (hcap0'.mem hx).1 le_rfl).1
  obtain ⟨⟨key, w'⟩, hw', heq⟩ := List.mem_map.mp hv'
  obtain ⟨rfl, rfl⟩ := Prod.mk.inj heq
  obtain ⟨w, hw, hle⟩ := hfloor.mem hw'
  refine ⟨_, List.mem_map.mpr ⟨(key, w), hw, rfl⟩, floorWeight_mono ?_ ?_⟩
  · exact scaled_le config.volTargetAnnual.property hfloor hnonneg hnonneg' hsid hw hw' hle
  · have hgross : 0 ≤ (floored.entries.map (·.2)).sum := List.sum_nonneg fun x hx => by
      obtain ⟨e, he, rfl⟩ := List.mem_map.mp hx
      exact hnonneg e he
    exact mul_nonneg (hnonneg _ hw) (limitScale_spec (Real.sqrt_nonneg _) hgross config.volTargetAnnual.property).1

end Lowered

/-! ### The book -/

/-- The target weight of a name, which is zero when it is not held. -/
noncomputable def finalWeight (book : ProposedBook ℝ) (sid : Int) : ℝ :=
  ((book.positions.find? fun p => p.securityId.val = sid).map fun p => p.targetWeight.val).getD 0

section Book
variable {pooled : Dict Int (PooledForecast ℝ)} {bear bear' : Dict Int (Option BearSeverity)} {sectors : Dict Int String}
  {volatilities : Dict Int ℝ} {fit : CalibrationFit ℝ} {config : RiskConfig ℝ} {runId : UUID} {asOf : AwareDatetime}
  {book book' : ProposedBook ℝ} {sid : Int}

theorem finalWeight_nonneg (book : ProposedBook ℝ) (sid : Int) : 0 ≤ finalWeight book sid := by
  unfold finalWeight
  cases book.positions.find? fun p => p.securityId.val = sid with
  | none => exact le_rfl
  | some p => exact p.targetWeight.property.1

/-- What a book is built from. -/
theorem sizeCommitteeBook_eq_ok (h : sizeCommitteeBook realFns runId asOf pooled bear sectors volatilities fit config = .ok book) :
    ∃ scored raw weights, scoredAt pooled fit.horizon = .ok scored ∧
      rawWeights realFns (scored.filterMap fun sid v => if volOf volatilities sid > 0 then some v else none) volatilities bear
        fit config = .ok raw ∧
      constrain realFns raw sectors volatilities config = .ok weights ∧
      List.Forall₂ (HoldsEntry sectors) (heldEntries weights) book.positions := by
  obtain ⟨scored, hscored, h⟩ := Except.bind_eq_ok.mp h
  obtain ⟨raw, hraw, h⟩ := Except.bind_eq_ok.mp h
  obtain ⟨weights, hweights, h⟩ := Except.bind_eq_ok.mp h
  obtain ⟨positions, hpositions, h⟩ := Except.bind_eq_ok.mp h
  refine ⟨scored, raw, weights, hscored, hraw, hweights, ?_⟩
  split at h
  · next b hbook =>
    rw [← Except.ok.inj h, make_book_positions hbook]
    exact (Except.mapM_eq_ok.mp hpositions).imp fun _ _ => holdsEntry_of_positionOf
  · cases h

/-- The weight of a name in a book is its weight after the constraints. -/
theorem finalWeight_of_held {weights : Dict Int ℝ}
    (hpositions : List.Forall₂ (HoldsEntry sectors) (heldEntries weights) book.positions) :
    (0 < finalWeight book sid → (sid, finalWeight book sid) ∈ weights.entries) ∧
      ∀ v, (sid, v) ∈ weights.entries → 0 < v → finalWeight book sid = v := by
  have hfound : ∀ p, book.positions.find? (fun p => p.securityId.val = sid) = some p →
      finalWeight book sid = p.targetWeight.val ∧ (sid, p.targetWeight.val) ∈ weights.entries := by
    intro p hp
    have hsid := List.find?_some hp
    rw [decide_eq_true_eq] at hsid
    obtain ⟨⟨key, w⟩, he, hkey, hweight, -⟩ := Forall₂.exists_of_mem_right hpositions (List.mem_of_find?_eq_some hp)
    refine ⟨by rw [finalWeight, hp]; rfl, ?_⟩
    rw [hweight, ← hsid, hkey]
    exact (mem_heldEntries.mp he).1
  constructor
  · intro hpos
    cases hp : book.positions.find? fun p => p.securityId.val = sid with
    | none =>
      rw [finalWeight, hp] at hpos
      exact absurd hpos (lt_irrefl 0)
    | some p =>
      obtain ⟨hweight, hmem⟩ := hfound p hp
      rw [hweight]
      exact hmem
  · intro v hv hpos
    obtain ⟨p, hp, hsid, -, -⟩ := Forall₂.exists_of_mem_left hpositions (mem_heldEntries.mpr ⟨hv, hpos⟩)
    cases hfind : book.positions.find? fun p => p.securityId.val = sid with
    | none =>
      have hnone := List.find?_eq_none.mp hfind p hp
      rw [decide_eq_true_eq] at hnone
      exact absurd hsid hnone
    | some p' =>
      obtain ⟨hweight, hmem⟩ := hfound p' hfind
      rw [hweight]
      exact (Prod.mk.inj (List.inj_on_of_nodup_map weights.nodup hmem hv rfl)).2

/-- A worse bear case of one name, in either mode, never adds to the weight of the name in the book. -/
theorem sizeCommitteeBook_bear_le (hothers : ∀ other, other ≠ sid → sBear config bear' other = sBear config bear other)
    (hlower : sBear config bear' sid ≤ sBear config bear sid)
    (h : sizeCommitteeBook realFns runId asOf pooled bear sectors volatilities fit config = .ok book)
    (h' : sizeCommitteeBook realFns runId asOf pooled bear' sectors volatilities fit config = .ok book') :
    finalWeight book' sid ≤ finalWeight book sid := by
  obtain ⟨scored, raw, weights, hscored, hraw, hweights, hpositions⟩ := sizeCommitteeBook_eq_ok h
  obtain ⟨scored', raw', weights', hscored', hraw', hweights', hpositions'⟩ := sizeCommitteeBook_eq_ok h'
  obtain rfl : scored = scored' := Except.ok.inj (hscored.symm.trans hscored')
  have hvol : ∀ {bear raw}, rawWeights realFns (scored.filterMap fun sid v => if volOf volatilities sid > 0 then some v else none)
      volatilities bear fit config = .ok raw → ∀ e ∈ raw.entries, 0 < volOf volatilities e.1 := by
    intro bear raw hraw e he
    obtain ⟨v, hv⟩ := (rawWeights_spec hraw).1 e he
    exact (mem_eligible hv).2
  by_cases hpos : 0 < finalWeight book' sid
  · have hmem := (finalWeight_of_held hpositions').1 hpos
    have hkey : sid ∈ raw'.keys := (constrain_keys hweights') ▸ List.mem_map_of_mem hmem
    obtain ⟨e, he, rfl⟩ := List.mem_map.mp hkey
    obtain ⟨v, hv, hle⟩ := constrain_lowers (hvol hraw' e he) (fun e he => (hvol hraw e he).ne')
      (fun e he => (hvol hraw' e he).ne') (rawWeights_bear hraw hraw') hothers hlower hweights hweights' hmem
    rw [(finalWeight_of_held hpositions).2 v hv (hpos.trans_le hle)]
    exact hle
  · exact (le_of_not_gt hpos).trans (finalWeight_nonneg book sid)

/-- A high severity on the one name. -/
def highBear : Dict Int (Option BearSeverity) := ⟨[(1, some .high)], by simp⟩

theorem sizeCommitteeBook_bear_le_one : ∃ book book',
    sizeCommitteeBook realFns ⟨0⟩ ⟨0, 0⟩ onePooled Dict.empty oneSector oneVolatility inactiveFit riskYaml = .ok book ∧
      sizeCommitteeBook realFns ⟨0⟩ ⟨0, 0⟩ onePooled highBear oneSector oneVolatility inactiveFit riskYaml = .ok book' ∧
      finalWeight book' 1 ≤ finalWeight book 1 := by
  have hreturns : ∀ bear, ∃ book, sizeCommitteeBook realFns ⟨0⟩ ⟨0, 0⟩ onePooled bear oneSector oneVolatility inactiveFit
      riskYaml = .ok book := fun bear => sizeCommitteeBook_ok ⟨0⟩ ⟨0, 0⟩ one_wellFormed
  obtain ⟨book, hbook⟩ := hreturns Dict.empty
  obtain ⟨book', hbook'⟩ := hreturns highBear
  refine ⟨book, book', hbook, hbook', sizeCommitteeBook_bear_le ?_ ?_ hbook hbook'⟩
  · intro other hne
    have hget : highBear.get? other = none := Dict.get?_eq_none.mpr (by simpa [Dict.keys, highBear] using hne)
    rw [sBear, sBear, hget, Dict.get?_empty]
  · show (0.5 : ℝ) ≤ 1
    norm_num

end Book
end Sizing
end AsymmetricCommittee
