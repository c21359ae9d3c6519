import AsymmetricCommittee.Theorems.TrainingLeak
import Mathlib

/-! What the gate ranks. The labels of a feature time are a top third of the securities that have a return, and they depend
    on the returns alone; the decisions pass the first scores, and more of them find more of the top third. -/

namespace AsymmetricCommittee
namespace Gate
variable {K : Type} [Field K] [LinearOrder K]

/-! ### Labels -/

section Labels
variable {horizon : Nat} {t : AwareDatetime} {sectors : Dict Int String} {prices prices' : Dict Int (List (PriceBar K))}
  {returns : Dict Int (K × AwareDatetime)} {bars bars' : List (PriceBar K)} {r : K × AwareDatetime} {c : K}

/-- How far the return of a security is from the mean of its sector. -/
def distanceOf (sectors : Dict Int String) (returns : Dict Int (K × AwareDatetime)) (sid : Int) : K :=
  ((relativeOf sectors returns).get? sid).getD 0

theorem keys_relativeOf (sectors : Dict Int String) (returns : Dict Int (K × AwareDatetime)) :
    (relativeOf sectors returns).keys = returns.keys := by
  rw [relativeOf, Dict.keys, Dict.entries_map, List.map_map]
  rfl

/-- The securities of the top third. -/
def topThird (sectors : Dict Int String) (returns : Dict Int (K × AwareDatetime)) : List Int :=
  topKeys (relativeOf sectors returns) ((returns.keys.length + 2) / 3)

theorem labelled_eq (sectors : Dict Int String) (t : AwareDatetime) (returns : Dict Int (K × AwareDatetime)) :
    labelled sectors t returns = (returns.sort fun a b => decide (a.1 ≤ b.1)).entries.map fun e =>
      ⟨e.1, t, e.2.2, decide (e.1 ∈ topThird sectors returns)⟩ := by
  have hlength : ((relativeOf sectors returns).sort fun a b => decide (Ranked a b)).keys.length = returns.keys.length := by
    rw [← keys_relativeOf sectors returns, Dict.keys, Dict.keys, List.length_map, List.length_map, Dict.entries_sort,
      List.length_mergeSort]
  rw [labelled, hlength]
  rfl

theorem ids_labelled (sectors : Dict Int String) (t : AwareDatetime) (returns : Dict Int (K × AwareDatetime)) :
    (labelled sectors t returns).map (·.securityId) = (returns.sort fun a b => decide (a.1 ≤ b.1)).keys := by
  rw [labelled_eq, List.map_map]
  rfl

omit [Field K] [LinearOrder K] in
theorem sorted_ids (returns : Dict Int (K × AwareDatetime)) :
    (returns.sort fun a b => decide (a.1 ≤ b.1)).keys.Pairwise (· < ·) := by
  have hsorted : (returns.sort fun a b => decide (a.1 ≤ b.1)).keys.Pairwise (· ≤ ·) := by
    rw [Dict.keys, List.pairwise_map]
    exact Grouping.sortOn_sorted (fun e : Int × K × AwareDatetime => e.1) returns.entries
  refine (hsorted.and (returns.sort fun a b => decide (a.1 ≤ b.1)).nodup).imp fun hab => ?_
  exact lt_of_le_of_ne hab.1 hab.2

/-- A third, rounded up. -/
theorem third_eq (n : Nat) : (n + 2) / 3 = ⌈(n : ℚ) / 3⌉₊ := by
  refine le_antisymm ?_ (Nat.ceil_le.mpr ?_)
  · have hle : (n : ℚ) / 3 ≤ ⌈(n : ℚ) / 3⌉₊ := Nat.le_ceil _
    rw [div_le_iff₀ three_pos] at hle
    have hnat : n ≤ ⌈(n : ℚ) / 3⌉₊ * 3 := by exact_mod_cast hle
    omega
  · rw [div_le_iff₀ three_pos]
    have hnat : n ≤ (n + 2) / 3 * 3 := by omega
    exact_mod_cast hnat

theorem length_tops (sectors : Dict Int String) (t : AwareDatetime) (returns : Dict Int (K × AwareDatetime)) :
    ((labelled sectors t returns).filter (·.isTopTercile)).length = (returns.keys.length + 2) / 3 := by
  have hids : ((labelled sectors t returns).filter (·.isTopTercile)).map (·.securityId) =
      (returns.sort fun a b => decide (a.1 ≤ b.1)).keys.filter fun sid => decide (sid ∈ topThird sectors returns) := by
    rw [labelled_eq, List.filter_map, List.map_map, Dict.keys, List.filter_map]
    rfl
  have hperm : ((returns.sort fun a b => decide (a.1 ≤ b.1)).keys.filter fun sid => decide (sid ∈ topThird sectors returns)).Perm
      (topThird sectors returns) := by
    refine (List.perm_ext_iff_of_nodup ((returns.sort _).nodup.filter _) (topKeys_nodup _ _)).mpr fun sid => ?_
    rw [List.mem_filter, decide_eq_true_iff]
    refine ⟨fun h => h.2, fun h => ⟨?_, h⟩⟩
    have hmem := mem_keys_of_mem_topKeys h
    rw [keys_relativeOf] at hmem
    exact Dict.mem_keys_sort.mpr hmem
  rw [← List.length_map (f := fun x : GateLabel => x.securityId), hids, hperm.length_eq, topThird, length_topKeys, keys_relativeOf]
  omega

/-- At each feature time the labels are one for each security with a return, in the order of the ids, and the top ones are a
    third of them, rounded up: those that are the farthest from their sector, the lower id first among equal ones. -/
theorem labelsAt_topTercile (hcov : Covered sectors prices) (horizon : Nat) (t : AwareDatetime) :
    ∃ labels, labelsAt prices sectors horizon t = .ok labels ∧ (labels.map (·.securityId)).Pairwise (· < ·) ∧
      (∀ sid, sid ∈ labels.map (·.securityId) ↔ ∃ r, forwardReturn horizon t (barsOf prices sid) = some r) ∧
      (labels.filter (·.isTopTercile)).length = ⌈(labels.length : ℚ) / 3⌉₊ ∧
      ∀ a ∈ labels, ∀ b ∈ labels, a.isTopTercile = true → b.isTopTercile = false →
        Ranked (a.securityId, distanceOf sectors (returnsAt prices horizon t) a.securityId)
          (b.securityId, distanceOf sectors (returnsAt prices horizon t) b.securityId) := by
  have hids := ids_labelled sectors t (returnsAt prices horizon t)
  refine ⟨_, labelsAt_eq hcov, ?_, fun sid => ?_, ?_, ?_⟩
  · rw [hids]
    exact sorted_ids _
  · rw [hids, Dict.mem_keys_sort, Dict.mem_keys, get?_returnsAt, Option.isSome_iff_exists]
  · have hlength : (labelled sectors t (returnsAt prices horizon t)).length = (returnsAt prices horizon t).keys.length := by
      rw [labelled_eq, List.length_map, Dict.entries_sort, List.length_mergeSort, Dict.keys, List.length_map]
    rw [length_tops, hlength, third_eq]
  · intro a ha b hb hatop hbtop
    have hdistance : ∀ {label : GateLabel}, label ∈ labelled sectors t (returnsAt prices horizon t) →
        (relativeOf sectors (returnsAt prices horizon t)).get? label.securityId =
          some (distanceOf sectors (returnsAt prices horizon t) label.securityId) := by
      intro label hlabel
      have hkey : label.securityId ∈ (relativeOf sectors (returnsAt prices horizon t)).keys := by
        rw [keys_relativeOf, ← Dict.mem_keys_sort, ← hids]
        exact List.mem_map_of_mem hlabel
      obtain ⟨x, hx⟩ := Option.isSome_iff_exists.mp (Dict.mem_keys.mp hkey)
      rw [distanceOf, hx, Option.getD_some]
    have htop : ∀ {label : GateLabel}, label ∈ labelled sectors t (returnsAt prices horizon t) →
        label.isTopTercile = decide (label.securityId ∈ topThird sectors (returnsAt prices horizon t)) := by
      intro label hlabel
      rw [labelled_eq] at hlabel
      obtain ⟨e, -, rfl⟩ := List.mem_map.mp hlabel
      rfl
    refine ranked_of_topKeys (hdistance ha) (hdistance hb) (n := ((returnsAt prices horizon t).keys.length + 2) / 3) ?_ ?_
    · rw [htop ha] at hatop
      exact of_decide_eq_true hatop
    · rw [htop hb] at hbtop
      exact of_decide_eq_false hbtop

/-! ### Units of the prices -/

/-- The same bar, with the close in another unit. -/
def Repriced (c : K) (bar bar' : PriceBar K) : Prop := bar'.eventTime = bar.eventTime ∧ bar'.close.val = c * bar.close.val

/-- The same history in another order and another unit. -/
def SameHistory (bars bars' : List (PriceBar K)) : Prop :=
  (bars.map fun bar => bar.eventTime.instant).Nodup ∧
    ∃ c, c ≠ 0 ∧ ∃ reordered, bars.Perm reordered ∧ List.Forall₂ (Repriced c) reordered bars'

theorem Repriced.symm {bar bar' : PriceBar K} (hc : c ≠ 0) (h : Repriced c bar bar') : Repriced c⁻¹ bar' bar := by
  refine ⟨h.1.symm, ?_⟩
  rw [h.2, inv_mul_cancel_left₀ hc]

theorem forwardReturn_repriced (hc : c ≠ 0) (h : List.Forall₂ (Repriced c) bars bars')
    (hr : forwardReturn horizon t bars = some r) : forwardReturn horizon t bars' = some r := by
  have hordered : List.Forall₂ (Repriced c) (ordered bars) (ordered bars') :=
    Grouping.sortOn_forall₂ (fun a b hab => congrArg AwareDatetime.instant hab.1) h
  obtain ⟨start, first, last, hstart, hfirst, hlast, rfl⟩ := forwardReturn_eq_some.mp hr
  have hlength : (upTo t (ordered bars')).length = (upTo t (ordered bars)).length := by
    rw [upTo, upTo, ← List.countP_eq_length_filter, ← List.countP_eq_length_filter]
    clear hstart hfirst hlast hr
    generalize ordered bars = l, ordered bars' = l' at hordered
    induction hordered with
    | nil => rfl
    | cons hbar _ ih => rw [List.countP_cons, List.countP_cons, ih, hbar.1]
  have hat : ∀ {i : Nat} {bar : PriceBar K}, (ordered bars)[i]? = some bar → ∃ bar', (ordered bars')[i]? = some bar' ∧ Repriced c bar bar' := by
    intro i bar hbar
    obtain ⟨hi, rfl⟩ := List.getElem?_eq_some_iff.mp hbar
    have hi' : i < (ordered bars').length := hordered.length_eq ▸ hi
    exact ⟨_, List.getElem?_eq_getElem hi', hordered.get hi hi'⟩
  obtain ⟨first', hfirst', htime, hclose⟩ := hat hfirst
  obtain ⟨last', hlast', htime', hclose'⟩ := hat hlast
  refine forwardReturn_eq_some.mpr ⟨start, first', last', hlength.trans hstart, hfirst', hlast', ?_⟩
  rw [hclose, hclose', htime', mul_div_mul_left _ _ hc]

theorem forwardReturn_history (h : SameHistory bars bars') : forwardReturn horizon t bars' = forwardReturn horizon t bars := by
  obtain ⟨hnodup, c, hc, reordered, hperm, hscaled⟩ := h
  have hordered : ordered reordered = ordered bars := by
    refine (Grouping.sortOn_eq_of_perm hperm fun a ha b hb hab => ?_).symm
    exact List.inj_on_of_nodup_map hnodup ha hb hab
  have hsame : forwardReturn horizon t reordered = forwardReturn horizon t bars := by
    refine Option.ext fun r => ?_
    rw [forwardReturn_eq_some, forwardReturn_eq_some, hordered]
  rw [← hsame]
  refine Option.ext fun r => ⟨fun hr => ?_, fun hr => ?_⟩
  · refine forwardReturn_repriced (inv_ne_zero hc) ?_ hr
    exact hscaled.flip.imp fun _ _ h => Repriced.symm hc h
  · exact forwardReturn_repriced hc hscaled hr

/-- The labels depend on the returns alone: on neither the order of the securities and of their bars nor, security by
    security, the unit of the prices, such as the adjustment of a history for a split. -/
theorem buildLabels_repriced (hcov : Covered sectors prices) (hcov' : Covered sectors prices')
    (h : ∀ sid, SameHistory (barsOf prices sid) (barsOf prices' sid)) (times : List AwareDatetime) (horizon : Nat) :
    buildLabels times prices' sectors horizon = buildLabels times prices sectors horizon := by
  rw [buildLabels_eq hcov, buildLabels_eq hcov']
  refine congrArg (fun l => Except.ok (List.flatten l)) (List.map_congr_left fun t _ => ?_)
  refine labelled_perm (Dict.entries_perm fun sid => ?_)
  rw [get?_returnsAt, get?_returnsAt, forwardReturn_history (h sid)]

end Labels

section Samples
open Walkforward

theorem labelsAt_topTercile_two : ∃ labels, labelsAt (twoHistories (List.range 22)) oneSector 21 (dayOf 0) = .ok labels ∧
    (labels.map (·.securityId)).Pairwise (· < ·) ∧
    (labels.filter (·.isTopTercile)).length = ⌈(labels.length : ℚ) / 3⌉₊ := by
  obtain ⟨labels, hlabels, hids, -, htops, -⟩ := labelsAt_topTercile (covered_twoHistories (List.range 22)) 21 (dayOf 0)
  exact ⟨labels, hlabels, hids, htops⟩

/-- A bar of the second security before a split into two. -/
def unsplitBar (n : Nat) : PriceBar ℚ :=
  { barOn secondId n with
    «open» := ⟨200, by norm_num⟩
    high := ⟨200, by norm_num⟩
    low := ⟨200, by norm_num⟩
    close := ⟨200, by norm_num⟩
    within := by norm_num }

def unsplitHistories : Dict Int (List (PriceBar ℚ)) :=
  ⟨[(2, (List.range 22).reverse.map unsplitBar), (1, (List.range 22).map (barOn firstId))], by simp⟩

theorem barsOf_unsplit (sid : Int) : barsOf unsplitHistories sid =
    if sid = 2 then (List.range 22).reverse.map unsplitBar else if sid = 1 then (List.range 22).map (barOn firstId) else [] := by
  rw [barsOf, Dict.get?, unsplitHistories, List.lookup_cons, List.lookup_cons]
  split_ifs with htwo hone
  · rw [htwo]
    rfl
  · rw [hone]
    rfl
  · rw [beq_eq_false_iff_ne.mpr hone, beq_eq_false_iff_ne.mpr htwo]
    rfl

theorem covered_unsplit : Covered oneSector unsplitHistories := by
  intro sid hsid
  refine covered_twoHistories (List.range 22) sid ?_
  change sid ∈ [(2 : Int), 1] at hsid
  change sid ∈ [(1 : Int), 2]
  simpa [or_comm] using hsid

theorem nodup_times (sid : SecurityId) : (((List.range 22).map (barOn sid)).map fun bar => bar.eventTime.instant).Nodup := by
  rw [List.map_map]
  refine List.nodup_range.map fun a b hab => ?_
  simp only [Function.comp_apply, barOn, dayOf] at hab
  omega

theorem sameHistory_unsplit (sid : Int) : SameHistory (barsOf (twoHistories (List.range 22)) sid) (barsOf unsplitHistories sid) := by
  rw [barsOf_twoHistories, barsOf_unsplit]
  by_cases hone : sid = 1
  · subst hone
    refine ⟨nodup_times firstId, 1, one_ne_zero, _, List.Perm.refl _, List.forall₂_same.mpr fun bar _ => ⟨rfl, (one_mul _).symm⟩⟩
  · by_cases htwo : sid = 2
    · subst htwo
      refine ⟨nodup_times secondId, 2, two_ne_zero, (List.range 22).reverse.map (barOn secondId), ?_, ?_⟩
      · exact (List.reverse_perm _).symm.map _
      · rw [if_pos rfl, List.forall₂_map_left_iff, List.forall₂_map_right_iff, List.forall₂_same]
        intro n _
        refine ⟨rfl, ?_⟩
        norm_num [unsplitBar, barOn]
    · rw [if_neg hone, if_neg htwo, if_neg htwo, if_neg hone]
      exact ⟨List.nodup_nil, 1, one_ne_zero, [], .nil, .nil⟩

theorem buildLabels_repriced_unsplit : buildLabels [dayOf 0] unsplitHistories oneSector 21 =
    buildLabels [dayOf 0] (twoHistories (List.range 22)) oneSector 21 :=
  buildLabels_repriced (covered_twoHistories (List.range 22)) covered_unsplit sameHistory_unsplit [dayOf 0] 21

end Samples

end Gate
end AsymmetricCommittee
