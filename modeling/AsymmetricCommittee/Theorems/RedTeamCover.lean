import AsymmetricCommittee.Lib.Ranking
import AsymmetricCommittee.Contracts.Samples
import AsymmetricCommittee.Theorems.PooledVerdicts
import AsymmetricCommittee.Theorems.SizingLimits

/-! Which of the names a step sizes were put to the red team. The step ranks the pooled names twice: all of them for the
    red team, and those with a volatility for the book. A held name was reviewed exactly when few enough pooled names
    rank before it; the sizing mode bounds how many can. -/

namespace AsymmetricCommittee
namespace Pipeline
open Sizing (volOf sigmoid)

section Cover
variable {K : Type} [Field K] [LinearOrder K] {fns : Pooling.PoolFns K} {cfg : PipelineConfig K} {s : Surroundings K}
  {pooled : List (SecurityId × PooledForecast K)} {redIds : List SecurityId}

/-! ### The ranking of the pooled names -/

/-- The logit of a forecast at the primary horizon. -/
def primaryLogit (cfg : PipelineConfig K) (forecast : PooledForecast K) : K :=
  ((forecast.pool cfg.primary).map (·.logit)).getD 0

/-- `y` ranks before `x` for the red team: its logit is higher, or the same and its id lower. -/
def Before (cfg : PipelineConfig K) (x y : SecurityId × PooledForecast K) : Prop :=
  primaryLogit cfg x.2 < primaryLogit cfg y.2 ∨ (primaryLogit cfg x.2 = primaryLogit cfg y.2 ∧ y.1.val < x.1.val)

instance (x y : SecurityId × PooledForecast K) : Decidable (Before cfg x y) := inferInstanceAs (Decidable (_ ∨ _))

theorem before_iff {x y : SecurityId × PooledForecast K} :
    Before cfg x y ↔ ¬Ranked (x.1, primaryLogit cfg x.2) (y.1, primaryLogit cfg y.2) :=
  (not_ranked (a := (x.1, primaryLogit cfg x.2)) (b := (y.1, primaryLogit cfg y.2))).symm

/-- The pooled names that rank before `x`. -/
def ahead (cfg : PipelineConfig K) (pooled : List (SecurityId × PooledForecast K)) (x : SecurityId × PooledForecast K) :
    List (SecurityId × PooledForecast K) := pooled.filter fun y => Before cfg x y

/-- The candidates are the first of the ranking of the pooled names. -/
theorem candidates_eq_ok (h : candidates cfg pooled = .ok redIds) :
    (∀ x ∈ pooled, (x.2.pool cfg.primary).isSome) ∧
      redIds = (((pooled.map fun x => (x.1, primaryLogit cfg x.2)).insertionSort Ranked).take redTeamTopN).map Prod.fst := by
  obtain ⟨scored, hscored, h⟩ := Except.bind_eq_ok.mp h
  have hpools := Except.mapM_eq_ok.mp hscored
  have hpool : ∀ x ∈ pooled, ∃ pool, x.2.pool cfg.primary = some pool := fun x hx => by
    obtain ⟨y, -, hy⟩ := Forall₂.exists_of_mem_left hpools hx
    cases hsome : x.2.pool cfg.primary with
    | none => rw [hsome] at hy; cases hy
    | some pool => exact ⟨pool, rfl⟩
  have heq : scored = pooled.map fun x => (x.1, primaryLogit cfg x.2) := by
    refine Except.ok.inj (hscored.symm.trans (Except.mapM_eq_ok.mpr ?_))
    rw [List.forall₂_map_right_iff, List.forall₂_same]
    intro x hx
    obtain ⟨pool, hsome⟩ := hpool x hx
    rw [primaryLogit, hsome]
    rfl
  refine ⟨fun x hx => ?_, ?_⟩
  · obtain ⟨pool, hsome⟩ := hpool x hx
    rw [hsome]
    rfl
  · rw [← heq]
    exact (Except.ok.inj h).symm

/-- A pooled name is a candidate iff fewer than the red team's number rank before it. -/
theorem mem_candidates_iff (h : candidates cfg pooled = .ok redIds) (hids : (pooled.map Prod.fst).Nodup)
    {x : SecurityId × PooledForecast K} (hx : x ∈ pooled) :
    x.1 ∈ redIds ↔ (ahead cfg pooled x).length < redTeamTopN := by
  obtain ⟨-, rfl⟩ := candidates_eq_ok h
  set scored := pooled.map fun x => (x.1, primaryLogit cfg x.2) with hscored
  have hperm := List.perm_insertionSort Ranked scored
  have hfst : scored.map Prod.fst = pooled.map Prod.fst := by
    rw [hscored, List.map_map]
    rfl
  have hkeys : ((scored.insertionSort Ranked).map Prod.fst).Nodup :=
    ((hperm.map Prod.fst).nodup_iff).mpr (hfst ▸ hids)
  have hmem : (x.1, primaryLogit cfg x.2) ∈ scored.insertionSort Ranked :=
    hperm.mem_iff.mpr (List.mem_map_of_mem (f := fun x => (x.1, primaryLogit cfg x.2)) hx)
  -- ids occur once, so the name is a candidate iff its entry is
  have hentry : x.1 ∈ ((scored.insertionSort Ranked).take redTeamTopN).map Prod.fst ↔
      (x.1, primaryLogit cfg x.2) ∈ (scored.insertionSort Ranked).take redTeamTopN := by
    constructor
    · intro hx'
      obtain ⟨e, he, hfst⟩ := List.mem_map.mp hx'
      rwa [List.inj_on_of_nodup_map hkeys (List.mem_of_mem_take he) hmem hfst] at he
    · exact fun he => List.mem_map.mpr ⟨_, he, rfl⟩
  have hsorted : (scored.insertionSort Ranked).Pairwise Ranked :=
    List.pairwise_insertionSort Ranked scored
  rw [hentry, mem_take_iff_countBefore hsorted (hkeys.of_map _) hmem (ranked_refl _)
    (fun _ _ => ranked_antisymm) redTeamTopN, countBefore_perm hperm]
  rw [countBefore, hscored, List.countP_map, List.countP_eq_length_filter, ahead]
  simp only [before_iff]
  rfl

/-! ### The pooled names are distinct -/

theorem securityOf_eq_some {entities : List (Partitions.EntityData K)} {token : EntityToken} {sid : SecurityId}
    (h : securityOf entities token = some sid) : ∃ e ∈ entities, e.entityToken = token ∧ e.securityId = sid := by
  obtain ⟨e, he, rfl⟩ := Option.map_eq_some_iff.mp h
  exact ⟨e, List.mem_of_find?_eq_some he, by simpa using List.find?_some he, rfl⟩

theorem securityOf_inj {inputs : StepInputs K} {token token' : EntityToken} {sid : SecurityId}
    (h : securityOf inputs.entities token = some sid) (h' : securityOf inputs.entities token' = some sid) :
    token = token' := by
  obtain ⟨e, he, rfl, hsid⟩ := securityOf_eq_some h
  obtain ⟨e', he', rfl, hsid'⟩ := securityOf_eq_some h'
  rw [List.inj_on_of_nodup_map inputs.ids_unique he he' (hsid.trans hsid'.symm)]

theorem poolGroup_some {group : EntityToken × List (AgentVerdict K)} {x : SecurityId × PooledForecast K}
    (h : poolGroup fns cfg s group = .ok (some x)) : securityOf s.inputs.entities group.1 = some x.1 := by
  unfold poolGroup at h
  split at h
  · cases h
  · cases h
  · split at h
    · cases h
    · next sid hsid =>
      cases h
      exact hsid

/-- Distinct tokens pool to distinct securities. -/
theorem pooled_ids_unique {groups : List (EntityToken × List (AgentVerdict K))}
    {forecasts : List (Option (SecurityId × PooledForecast K))}
    (h : List.Forall₂ (fun g r => poolGroup fns cfg s g = .ok r) groups forecasts) (hn : (groups.map Prod.fst).Nodup) :
    ((forecasts.filterMap id).map Prod.fst).Nodup := by
  induction h with
  | nil => exact List.nodup_nil
  | @cons g r groups forecasts hg hrest ih =>
    obtain ⟨hfresh, hn⟩ := List.nodup_cons.mp hn
    cases r with
    | none => exact ih hn
    | some x =>
      refine List.nodup_cons.mpr ⟨fun hmem => hfresh ?_, ih hn⟩
      obtain ⟨y, hy, hid⟩ := List.mem_map.mp hmem
      have hsome : some y ∈ forecasts := by simpa using hy
      obtain ⟨g', hg', hpool⟩ := Forall₂.exists_of_mem_right hrest hsome
      have hsame := securityOf_inj (poolGroup_some hg) (hid ▸ poolGroup_some hpool)
      rw [hsame]
      exact List.mem_map_of_mem hg'

theorem poolVerdicts_ids {votes : List (AgentVerdict K)} (h : poolVerdicts fns cfg s votes = .ok pooled) :
    (pooled.map Prod.fst).Nodup := by
  obtain ⟨forecasts, hforecasts, h⟩ := Except.bind_eq_ok.mp h
  rw [← Except.ok.inj h]
  refine pooled_ids_unique (Except.mapM_eq_ok.mp hforecasts) ?_
  rw [groupByToken, List.map_map]
  exact (List.map_id _).symm ▸ List.nodup_dedup _

/-- The pooled forecasts by security, as the sizing is given them. -/
def forecastsOf (pooled : List (SecurityId × PooledForecast K)) : Dict Int (PooledForecast K) :=
  pooled.foldl (fun d x => d.set x.1.val x.2) Dict.empty

theorem get?_forecastsOf (hids : (pooled.map Prod.fst).Nodup) {sid : Int} {forecast : PooledForecast K} :
    (forecastsOf pooled).get? sid = some forecast ↔ ∃ x ∈ pooled, x.1.val = sid ∧ x.2 = forecast := by
  have hsound : ∀ {f}, (forecastsOf pooled).get? sid = some f → ∃ x ∈ pooled, x.1.val = sid ∧ x.2 = f := fun h => by
    rcases Dict.of_get?_foldl_set h with hmem | hempty
    · exact hmem
    · cases hempty
  constructor
  · exact hsound
  · rintro ⟨x, hx, rfl, rfl⟩
    have hsome : ((forecastsOf pooled).get? x.1.val).isSome := Dict.isSome_get?_foldl_set (.inl ⟨x, hx, rfl⟩)
    obtain ⟨f, hf⟩ := Option.isSome_iff_exists.mp hsome
    obtain ⟨y, hy, hid, rfl⟩ := hsound hf
    rw [List.inj_on_of_nodup_map hids hx hy (Subtype.ext hid.symm)]
    exact hid ▸ hf

/-! ### The names a book holds -/

/-- What a step did that got as far as a sized book: it pooled votes, sent `redIds` to the red team and sized the
    pooled forecasts. -/
structure Sized (fns : Pooling.PoolFns K) (cfg : PipelineConfig K) (s : Surroundings K)
    (pooled : List (SecurityId × PooledForecast K)) (redIds : List SecurityId) (fit : CalibrationFit K)
    (book : ProposedBook K) : Prop where
  pools : ∃ votes, poolVerdicts fns cfg s votes = .ok pooled
  sent : candidates cfg pooled = .ok redIds
  fits : fitAt cfg s cfg.primary = .ok fit
  sizes : ∃ runId asOf bear, Sizing.sizeCommitteeBook fns.toMathFns runId asOf (forecastsOf pooled) bear
    (s.inputs.entities.foldl (fun d e => d.set e.securityId.val e.sector) (Dict.empty : Dict Int String))
    (volatilities s.inputs.entities) fit cfg.risk = .ok book

/-- The calibrated probability of a pooled name. -/
def pCal (fns : Pooling.PoolFns K) (cfg : PipelineConfig K) (fit : CalibrationFit K) (x : SecurityId × PooledForecast K) : K :=
  sigmoid fns.toMathFns (fit.alpha + fit.beta * primaryLogit cfg x.2)

theorem mem_scored {forecasts : Dict Int (PooledForecast K)} {horizon : Horizon} {scored : Dict Int (K × K)}
    (h : Sizing.scoredAt forecasts horizon = .ok scored) {sid : Int} {v : K × K} :
    (sid, v) ∈ scored.entries ↔
      ∃ f, forecasts.get? sid = some f ∧ ∃ pool, f.pool horizon = some pool ∧ (pool.logit, pool.dispersion.val) = v := by
  unfold Sizing.scoredAt at h
  split at h
  · cases h
    simp only [Dict.mem_filterMap, Dict.get?_eq_some, Option.map_eq_some_iff]
  · cases h

/-- The order of the sizing's ranking, on scored names. -/
def RankedScore (a b : Int × (K × K)) : Prop := Ranked (a.1, a.2.1) (b.1, b.2.1)

instance : DecidableRel (RankedScore (K := K)) := fun _ _ => inferInstanceAs (Decidable (Ranked _ _))

/-- In rank mode fewer than M eligible names rank before a name with a raw weight. -/
theorem rankRaw_mem {eligible : Dict Int (K × K)} {vols : Dict Int K} {bear : Dict Int (Option BearSeverity)}
    {config : RiskConfig K} {sid : Int} (h : sid ∈ (Sizing.rankRaw eligible vols bear config).keys) :
    ∃ v, (sid, v) ∈ eligible.entries ∧ countBefore RankedScore eligible.entries (sid, v) < config.rankTopM := by
  set ranking := eligible.entries.mergeSort fun a b => decide (b.2.1 < a.2.1 ∨ (a.2.1 = b.2.1 ∧ a.1 ≤ b.1)) with hranking
  have hperm : ranking.Perm eligible.entries := List.mergeSort_perm _ _
  have hkeys : (ranking.map Prod.fst).Nodup := ((hperm.map Prod.fst).nodup_iff).mpr eligible.nodup
  have hsorted : ranking.Pairwise RankedScore := by
    refine (List.pairwise_mergeSort (fun a b c hab hbc => ?_) (fun a b => ?_) eligible.entries).imp fun h => of_decide_eq_true h
    · exact decide_eq_true (ranked_trans (a := (a.1, a.2.1)) (b := (b.1, b.2.1)) (c := (c.1, c.2.1))
        (of_decide_eq_true hab) (of_decide_eq_true hbc))
    · rw [Bool.or_eq_true, decide_eq_true_iff, decide_eq_true_iff]
      exact ranked_total (a.1, a.2.1) (b.1, b.2.1)
  simp only [Sizing.rankRaw, Dict.keys, Dict.entries_map, Dict.entries_take, Dict.entries_sort, List.map_map] at h
  obtain ⟨e, he, rfl⟩ := List.mem_map.mp h
  have hmem : e ∈ ranking := List.mem_of_mem_take he
  refine ⟨e.2, hperm.mem_iff.mp hmem, ?_⟩
  rw [← countBefore_perm hperm]
  refine (mem_take_iff_countBefore hsorted (hkeys.of_map _) hmem (ranked_refl _) (fun y hy hey hye => ?_) _).mp he
  -- entries of one rank are of one name
  have hsame := ranked_antisymm (a := (e.1, e.2.1)) (b := (y.1, y.2.1)) hey hye
  exact List.inj_on_of_nodup_map hkeys hmem hy (Prod.mk.inj hsame).1

section Held
variable {vols : Dict Int K} {scored : Dict Int (K × K)}

/-- The eligible names of the sizing. -/
def eligibleOf (scored : Dict Int (K × K)) (vols : Dict Int K) : Dict Int (K × K) :=
  scored.filterMap fun sid v => if volOf vols sid > 0 then some v else none

/-- An eligible name is a pooled name with a positive volatility, under its primary logit. -/
theorem eligible_pooled (hids : (pooled.map Prod.fst).Nodup)
    (hscored : Sizing.scoredAt (forecastsOf pooled) cfg.primary = .ok scored) {sid : Int} {v : K × K}
    (h : (sid, v) ∈ (eligibleOf scored vols).entries) :
    0 < volOf vols sid ∧ ∃ x ∈ pooled, x.1.val = sid ∧ v.1 = primaryLogit cfg x.2 := by
  obtain ⟨hmem, hvol⟩ := Sizing.mem_eligible h
  obtain ⟨f, hf, pool, hpool, rfl⟩ := (mem_scored hscored).mp hmem
  obtain ⟨x, hx, hsid, rfl⟩ := (get?_forecastsOf hids).mp hf
  refine ⟨hvol, x, hx, hsid, ?_⟩
  rw [primaryLogit, hpool]
  rfl

theorem pooled_eligible (hids : (pooled.map Prod.fst).Nodup)
    (hscored : Sizing.scoredAt (forecastsOf pooled) cfg.primary = .ok scored) {x : SecurityId × PooledForecast K}
    (hx : x ∈ pooled) (hpool : (x.2.pool cfg.primary).isSome) (hvol : 0 < volOf vols x.1.val) :
    ∃ v, (x.1.val, v) ∈ (eligibleOf scored vols).entries ∧ v.1 = primaryLogit cfg x.2 := by
  obtain ⟨pool, hpool⟩ := Option.isSome_iff_exists.mp hpool
  refine ⟨(pool.logit, pool.dispersion.val), Dict.mem_filterMap.mpr ⟨_, ?_, if_pos hvol⟩, ?_⟩
  · exact (mem_scored hscored).mpr ⟨x.2, (get?_forecastsOf hids).mpr ⟨x, hx, rfl, rfl⟩, pool, hpool, rfl⟩
  · rw [primaryLogit, hpool]
    rfl

/-- Of the pooled names ahead of an eligible one, those with a volatility are eligible and ahead of it too. -/
theorem length_ahead_le (hids : (pooled.map Prod.fst).Nodup) (hpools : ∀ x ∈ pooled, (x.2.pool cfg.primary).isSome)
    (hscored : Sizing.scoredAt (forecastsOf pooled) cfg.primary = .ok scored) {x : SecurityId × PooledForecast K}
    {v : K × K} (hv : v.1 = primaryLogit cfg x.2) :
    (ahead cfg pooled x).length ≤ ((ahead cfg pooled x).filter fun y => volOf vols y.1.val ≤ 0).length +
      countBefore RankedScore (eligibleOf scored vols).entries (x.1.val, v) := by
  rw [List.length_eq_length_filter_add fun y : SecurityId × PooledForecast K => decide (volOf vols y.1.val ≤ 0)]
  refine Nat.add_le_add_left ?_ _
  set front := (ahead cfg pooled x).filter fun y => !decide (volOf vols y.1.val ≤ 0) with hfront
  have hsub : front.Sublist pooled := List.filter_sublist.trans List.filter_sublist
  have hnodup : (front.map fun y => y.1.val).Nodup := by
    have hfst : (front.map Prod.fst).Nodup := hids.sublist (hsub.map Prod.fst)
    have hval := hfst.map (f := Subtype.val) Subtype.val_injective
    rwa [List.map_map] at hval
  have hincl : front.map (fun y => y.1.val) ⊆
      ((eligibleOf scored vols).entries.filter fun e => decide (¬RankedScore (x.1.val, v) e)).map Prod.fst := by
    intro sid hsid
    obtain ⟨y, hy, rfl⟩ := List.mem_map.mp hsid
    obtain ⟨hahead, hvol⟩ := List.mem_filter.mp hy
    obtain ⟨hmem, hbefore⟩ := List.mem_filter.mp hahead
    have hpos : 0 < volOf vols y.1.val := by simpa using hvol
    obtain ⟨w, hw, hlogit⟩ := pooled_eligible hids hscored hmem (hpools y hmem) hpos
    refine List.mem_map.mpr ⟨(y.1.val, w), List.mem_filter.mpr ⟨hw, decide_eq_true ?_⟩, rfl⟩
    rw [RankedScore, not_ranked, hv, hlogit]
    exact of_decide_eq_true hbefore
  have hlen := (List.subperm_of_subset hnodup hincl).length_le
  rw [List.length_map, List.length_map] at hlen
  rwa [countBefore, List.countP_eq_length_filter]

end Held

/-- A held name is a pooled one, and its mode admitted it: few eligible names are ahead of it, or it clears the
    edge hurdle. -/
theorem held_admitted {fit : CalibrationFit K} {book : ProposedBook K} (h : Sized fns cfg s pooled redIds fit book)
    (hfit : fit.horizon = cfg.primary) {p : ProposedPosition K} (hp : p ∈ book.positions) :
    ∃ x ∈ pooled, x.1 = p.securityId ∧
      (fit.active = false → (ahead cfg pooled x).length <
        ((ahead cfg pooled x).filter fun y => volOf (volatilities s.inputs.entities) y.1.val ≤ 0).length + cfg.risk.rankTopM) ∧
      (fit.active = true → ∃ b ∈ fit.baseRate, cfg.risk.edgeHurdle.val ≤ pCal fns cfg fit x - b.val) := by
  obtain ⟨votes, hvotes⟩ := h.pools
  have hids := poolVerdicts_ids hvotes
  obtain ⟨hpools, -⟩ := candidates_eq_ok h.sent
  obtain ⟨runId, asOf, bear, hsizes⟩ := h.sizes
  obtain ⟨scored, raw, hscored, hraw, hheld⟩ := Sizing.sizeCommitteeBook_raw hsizes
  rw [hfit] at hscored
  have hsid := hheld p hp
  unfold Sizing.rawWeights at hraw
  split at hraw
  · rename_i hactive
    rw [← Except.ok.inj hraw] at hsid
    obtain ⟨v, hv, hcount⟩ := rankRaw_mem hsid
    obtain ⟨-, x, hx, hid, hlogit⟩ := eligible_pooled hids hscored hv
    refine ⟨x, hx, Subtype.ext hid, fun _ => ?_, fun hcal => absurd (hactive.symm.trans hcal) (by decide)⟩
    rw [← hid] at hcount
    exact (length_ahead_le hids hpools hscored hlogit).trans_lt (Nat.add_lt_add_left hcount _)
  · rename_i hactive
    split at hraw
    · cases hraw
    · next b hb =>
      rw [← Except.ok.inj hraw] at hsid
      obtain ⟨⟨sid, w⟩, hmem, hid⟩ := List.mem_map.mp hsid
      obtain rfl : sid = p.securityId.val := hid
      obtain ⟨v, hv, hedge⟩ := Dict.mem_filterMap.mp hmem
      obtain ⟨-, x, hx, hid, hlogit⟩ := eligible_pooled hids hscored hv
      refine ⟨x, hx, Subtype.ext hid, fun hrank => absurd hrank hactive, fun _ => ⟨b, hb, ?_⟩⟩
      rw [pCal, ← hlogit]
      dsimp only at hedge
      split at hedge
      · assumption
      · cases hedge

variable [IsStrictOrderedRing K]

/-- A held name was sent to the red team exactly when fewer than the red team's number of pooled names rank before it.
    In rank mode it was, unless many names ahead of it have no volatility; in calibrated mode, unless many names clear
    the edge hurdle. -/
theorem held_sent_iff {fit : CalibrationFit K} {book : ProposedBook K} (h : Sized fns cfg s pooled redIds fit book)
    (hfit : fit.horizon = cfg.primary) {p : ProposedPosition K} (hp : p ∈ book.positions) :
    ∃ x ∈ pooled, x.1 = p.securityId ∧ (p.securityId ∈ redIds ↔ (ahead cfg pooled x).length < redTeamTopN) ∧
      (fit.active = false → ((ahead cfg pooled x).filter fun y => volOf (volatilities s.inputs.entities) y.1.val ≤ 0).length +
        cfg.risk.rankTopM ≤ redTeamTopN → p.securityId ∈ redIds) ∧
      (fit.active = true → (∀ u v, u ≤ v →
          sigmoid fns.toMathFns (fit.alpha + fit.beta * u) ≤ sigmoid fns.toMathFns (fit.alpha + fit.beta * v)) →
        (∀ b ∈ fit.baseRate, (pooled.filter fun y => cfg.risk.edgeHurdle.val ≤ pCal fns cfg fit y - b.val).length ≤
          redTeamTopN) → p.securityId ∈ redIds) := by
  obtain ⟨votes, hvotes⟩ := h.pools
  have hids := poolVerdicts_ids hvotes
  obtain ⟨x, hx, hid, hrank, hcal⟩ := held_admitted h hfit hp
  have hsent := mem_candidates_iff h.sent hids hx
  rw [hid] at hsent
  refine ⟨x, hx, hid, hsent, fun hactive hfew => hsent.mpr ((hrank hactive).trans_le hfew), fun hactive hmono hfew => ?_⟩
  obtain ⟨b, hb, hedge⟩ := hcal hactive
  refine hsent.mpr (lt_of_lt_of_le ?_ (hfew b hb))
  -- `x` and the names ahead of it clear the hurdle
  have hahead : x ∉ ahead cfg pooled x := fun hmem => by
    have hbefore : Before cfg x x := by simpa using (List.mem_filter.mp hmem).2
    exact before_iff.mp hbefore (ranked_refl _)
  have hnodup : (x :: ahead cfg pooled x).Nodup :=
    List.nodup_cons.mpr ⟨hahead, (hids.of_map _).sublist List.filter_sublist⟩
  have hincl : x :: ahead cfg pooled x ⊆
      pooled.filter fun y => cfg.risk.edgeHurdle.val ≤ pCal fns cfg fit y - b.val := fun y hy => by
    rcases List.mem_cons.mp hy with rfl | hy
    · exact List.mem_filter.mpr ⟨hx, decide_eq_true hedge⟩
    · obtain ⟨hmem, hbefore⟩ := List.mem_filter.mp hy
      refine List.mem_filter.mpr ⟨hmem, decide_eq_true (hedge.trans (sub_le_sub_right ?_ b.val))⟩
      have hlogit : primaryLogit cfg x.2 ≤ primaryLogit cfg y.2 := by
        rcases (of_decide_eq_true hbefore : Before cfg x y) with hlt | ⟨heq, -⟩
        · exact hlt.le
        · exact heq.le
      exact hmono _ _ hlogit
  exact Nat.lt_of_succ_le ((List.subperm_of_subset hnodup hincl).length_le)

/-! ### A committed step sized a book -/

section Execution
variable [FloorRing K] {fl : PyFloat K} {py : PyText} {sha256 : String → Sha256Hex} {F : Json.FloatText K} {a a' : Attempt K}
  {step : StepArtifacts K (Verdict K)}

omit [IsStrictOrderedRing K] [FloorRing K] in
theorem bookStage_sizes (h : bookStage fns sha256 F cfg s a pooled = .ok step) :
    ∃ fit bear book, fitAt cfg s cfg.primary = .ok fit ∧
      Sizing.sizeCommitteeBook fns.toMathFns a.runId a.asOf (forecastsOf pooled) bear
        (s.inputs.entities.foldl (fun d e => d.set e.securityId.val e.sector) (Dict.empty : Dict Int String))
        (volatilities s.inputs.entities) fit cfg.risk = .ok book := by
  obtain ⟨fit, hfit, h⟩ := Except.bind_eq_ok.mp h
  obtain ⟨bear, -, h⟩ := Except.bind_eq_ok.mp h
  dsimp only at h
  split at h
  · cases h
  · next book hbook => exact ⟨fit, bear, book, hfit, hbook⟩

omit [IsStrictOrderedRing K] in
/-- A committed step pooled its votes, ran the red team on the candidates, and sized the pooled forecasts. -/
theorem execute_sized (h : (execute fl py fns sha256 F cfg s).run.run a = (.ok step, a')) (hc : step.run.status = .committed) :
    ∃ pooled redIds fit book, Sized fns cfg s pooled redIds fit book ∧
      ∃ done status a₁ a₂, (redTeamStage fl py cfg s redIds done).run.run a₁ = (.ok status, a₂) := by
  obtain ⟨seeded, t, hget, h⟩ := bind_eq_ok.mp h
  cases hget
  obtain ⟨first, a₁, -, h⟩ := bind_eq_ok.mp h
  obtain ⟨t, t', hget, h⟩ := bind_eq_ok.mp h
  cases hget
  split at h
  · rw [ofExcept_run] at h
    rw [unfinished_status (Prod.mk.inj h).1] at hc
    cases hc
  · obtain ⟨pooled, t, hpooled, h⟩ := bind_eq_ok.mp h
    rw [ofExcept_run] at hpooled
    obtain ⟨hpool, rfl⟩ := Prod.mk.inj hpooled
    obtain ⟨redIds, t, hred, h⟩ := bind_eq_ok.mp h
    rw [ofExcept_run] at hred
    obtain ⟨hsent, rfl⟩ := Prod.mk.inj hred
    obtain ⟨second, a₂, hsecond, h⟩ := bind_eq_ok.mp h
    obtain ⟨t, t', hget, h⟩ := bind_eq_ok.mp h
    cases hget
    split at h
    · rw [ofExcept_run] at h
      rw [unfinished_status (Prod.mk.inj h).1] at hc
      cases hc
    · rw [ofExcept_run] at h
      obtain ⟨hbook, rfl⟩ := Prod.mk.inj h
      obtain ⟨fit, bear, book, hfit, hsizes⟩ := bookStage_sizes hbook
      exact ⟨pooled, redIds, fit, book, ⟨⟨_, hpool⟩, hsent, hfit, ⟨_, _, bear, hsizes⟩⟩, _, second, _, a₂, hsecond⟩

end Execution

end Cover

/-! ### Sixteen names, of which the last has a volatility -/

section Sixteen
open Partitions (EntityData oneSecurity oneRow)

/-- Functions with the values that even odds and one held name need. -/
def heldFns : Pooling.PoolFns ℚ := ⟨⟨fun x => if x = (2 / 125) ^ 2 then 2 / 125 else x, fun x => 1 + x⟩, fun x => x - 1⟩

def nthToken (n : Nat) : EntityToken :=
  let text := "TICKER_" ++ toString (9 + n)
  if h : isEntityToken text = true then ⟨text, h⟩ else oneSecurity.entityToken

def nthSecurity (n : Nat) : EntityData ℚ :=
  { oneSecurity with
    securityId := ⟨n + 1, Samples.succ_securityId n⟩
    entityToken := nthToken (n + 1)
    features := oneRow 0 (if n = 15 then ⟨[(volFeature, .number (1 / 5))], by decide⟩ else Dict.empty) }

def nthVote (n : Nat) : AgentVerdict ℚ :=
  { evenVote .value Samples.value_votes with entityToken := nthToken (n + 1) }

def sixteenInputs : StepInputs ℚ :=
  { oneInputs with
    entities := (List.range 16).map nthSecurity
    ids_unique := by decide
    tokens_unique := by decide }

def sixteen : Surroundings ℚ := { lateAnswer with inputs := sixteenInputs }

/-- The pooled names, the red team's, the fit and the book of the step. -/
def sixteenSized : Except PipelineError
    (List (SecurityId × PooledForecast ℚ) × List SecurityId × CalibrationFit ℚ × ProposedBook ℚ) := do
  let pooled ← poolVerdicts heldFns oneConfig sixteen ((List.range 16).map nthVote)
  let redIds ← candidates oneConfig pooled
  let fit ← fitAt oneConfig sixteen oneConfig.primary
  match Sizing.sizeCommitteeBook heldFns.toMathFns ⟨1⟩ ⟨0, 0⟩ (forecastsOf pooled) Dict.empty
      (sixteen.inputs.entities.foldl (fun d e => d.set e.securityId.val e.sector) (Dict.empty : Dict Int String))
      (volatilities sixteen.inputs.entities) fit oneConfig.risk with
  | .ok book => return (pooled, redIds, fit, book)
  | .error e => throw (.sizing e)

/-- The red team is sent the first fifteen names, and the book holds the last one. -/
theorem sixteen_sized : ∃ pooled redIds fit book, Sized heldFns oneConfig sixteen pooled redIds fit book ∧
    fit.horizon = oneConfig.primary ∧ ∃ p ∈ book.positions, p.securityId ∉ redIds := by
  obtain ⟨⟨pooled, redIds, fit, book⟩, hsized, hfacts⟩ := Except.exists_ok_of_any
    (x := sixteenSized) (p := fun r => decide (r.2.2.1.horizon = oneConfig.primary ∧
      ∃ p ∈ r.2.2.2.positions, p.securityId ∉ r.2.1)) (by decide +kernel)
  obtain ⟨hfit, hheld⟩ := of_decide_eq_true hfacts
  obtain ⟨pooled', hpooled, h⟩ := Except.bind_eq_ok.mp hsized
  obtain ⟨redIds', hred, h⟩ := Except.bind_eq_ok.mp h
  obtain ⟨fit', hfits, h⟩ := Except.bind_eq_ok.mp h
  split at h
  · next book' hbook =>
    cases h
    exact ⟨pooled, redIds, fit, book, ⟨⟨_, hpooled⟩, hred, hfits, ⟨_, _, _, hbook⟩⟩, hfit, hheld⟩
  · cases h

theorem held_sent_iff_sixteen : ∃ pooled redIds fit book, Sized heldFns oneConfig sixteen pooled redIds fit book ∧
    ∃ p ∈ book.positions, ∃ x ∈ pooled, x.1 = p.securityId ∧
      (p.securityId ∈ redIds ↔ (ahead oneConfig pooled x).length < redTeamTopN) := by
  obtain ⟨pooled, redIds, fit, book, hsized, hfit, p, hp, -⟩ := sixteen_sized
  obtain ⟨x, hx, hid, hsent, -⟩ := held_sent_iff hsized hfit hp
  exact ⟨pooled, redIds, fit, book, hsized, p, hp, x, hx, hid, hsent⟩

/-- A held name that the red team was not sent, in rank mode and with M within the red team's number. -/
theorem held_not_sent : ∃ pooled redIds fit book, Sized heldFns oneConfig sixteen pooled redIds fit book ∧
    oneConfig.risk.rankTopM ≤ redTeamTopN ∧ ∃ p ∈ book.positions, p.securityId ∉ redIds := by
  obtain ⟨pooled, redIds, fit, book, hsized, -, hheld⟩ := sixteen_sized
  exact ⟨pooled, redIds, fit, book, hsized, by decide, hheld⟩

end Sixteen
end Pipeline
end AsymmetricCommittee
