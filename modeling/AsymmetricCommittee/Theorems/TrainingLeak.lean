import AsymmetricCommittee.Evaluation.Walkforward
import AsymmetricCommittee.Contracts.Samples

/-! What the training set sees of the future. A label is kept when its own horizon is over, but it ranks its security among
    all that have a return, and a security that misses bars gets its return from a bar that comes later. -/

namespace AsymmetricCommittee
namespace Gate
variable {K : Type} [Field K] [LinearOrder K]

section Horizon
variable {horizon : Nat} {asOf t : AwareDatetime} {bars : List (PriceBar K)} {r : K × AwareDatetime}

/-- The bars in order of time. -/
def ordered (bars : List (PriceBar K)) : List (PriceBar K) :=
  Grouping.sortOn (fun bar : PriceBar K => bar.eventTime.instant) bars

/-- The bars at or before a time. -/
def upTo (t : AwareDatetime) (bars : List (PriceBar K)) : List (PriceBar K) :=
  bars.filter fun bar => decide (bar.eventTime.instant ≤ t.instant)

/-- The bars before an instant. -/
def known (asOf : AwareDatetime) (bars : List (PriceBar K)) : List (PriceBar K) :=
  bars.filter fun bar => decide (bar.eventTime.instant < asOf.instant)

theorem ordered_sorted (bars : List (PriceBar K)) :
    (ordered bars).Pairwise fun a b => a.eventTime.instant ≤ b.eventTime.instant := Grouping.sortOn_sorted _ bars

theorem upTo_in_front (t : AwareDatetime) (bars : List (PriceBar K)) : (ordered bars).Pairwise fun a b =>
    decide (b.eventTime.instant ≤ t.instant) = true → decide (a.eventTime.instant ≤ t.instant) = true :=
  (ordered_sorted bars).imp fun hab hb => decide_eq_true (hab.trans (of_decide_eq_true hb))

/-- A return starts at the last bar up to the feature time, and ends at the bar the horizon names. -/
theorem forwardReturn_eq_some : forwardReturn horizon t bars = some r ↔ ∃ start first last,
    (upTo t (ordered bars)).length = start + 1 ∧ (ordered bars)[start]? = some first ∧
      (ordered bars)[start + horizon]? = some last ∧ r = (last.close.val / first.close.val - 1, last.eventTime) := by
  have hstarts : (((ordered bars).zipIdx.filter fun x => decide (x.1.eventTime.instant ≤ t.instant)).map Prod.snd).getLast? =
      if (upTo t (ordered bars)).length = 0 then none else some ((upTo t (ordered bars)).length - 1) := by
    rw [Grouping.positions_filter (upTo_in_front t bars), List.getLast?_range]
    rfl
  unfold forwardReturn
  dsimp only
  rw [← ordered, hstarts]
  generalize (upTo t (ordered bars)).length = n
  cases n with
  | zero => simp
  | succ start =>
    rw [if_neg (Nat.succ_ne_zero start)]
    dsimp only
    rw [Nat.add_sub_cancel]
    constructor
    · intro h
      split at h
      · next first last hfirst hlast =>
        rw [if_pos first.close.property] at h
        exact ⟨start, first, last, rfl, hfirst, hlast, (Option.some.inj h).symm⟩
      · cases h
    · rintro ⟨_, first, last, heq, hfirst, hlast, rfl⟩
      cases heq
      rw [hfirst, hlast]
      exact if_pos first.close.property

/-- A bar past those up to a time is after it. -/
theorem lt_of_getElem? {i : Nat} {bar : PriceBar K} (h : (ordered bars)[i]? = some bar) (hi : (upTo t (ordered bars)).length ≤ i) :
    t.instant < bar.eventTime.instant := by
  unfold upTo at hi
  rw [← Grouping.filter_append_filter_not (upTo_in_front t bars), List.getElem?_append_right hi] at h
  simpa using (List.mem_filter.mp (List.mem_of_getElem? h)).2

/-- The bars before an instant stand before the others. -/
theorem ordered_eq_append (asOf : AwareDatetime) (bars : List (PriceBar K)) : ∃ future, ordered bars = ordered (known asOf bars) ++ future ∧
    (∀ bar ∈ ordered (known asOf bars), bar.eventTime.instant < asOf.instant) ∧
      ∀ bar ∈ future, asOf.instant ≤ bar.eventTime.instant := by
  have hsplit := Grouping.filter_append_of_sorted (ordered_sorted bars) asOf.instant
  have hknown : (ordered bars).filter (fun bar => decide (bar.eventTime.instant < asOf.instant)) = ordered (known asOf bars) :=
    Grouping.filter_sortOn _ _ bars
  refine ⟨_, (hknown ▸ hsplit).symm, fun bar hbar => ?_, fun bar hbar => ?_⟩
  · rw [← hknown] at hbar
    exact of_decide_eq_true (List.mem_filter.mp hbar).2
  · exact of_decide_eq_true (List.mem_filter.mp hbar).2

/-- A return whose horizon is over is read from the bars that are known. -/
theorem forwardReturn_known (hh : 1 ≤ horizon) : forwardReturn horizon t (known asOf bars) = some r ↔
    forwardReturn horizon t bars = some r ∧ r.2.instant < asOf.instant := by
  obtain ⟨future, heq, hpast, hfuture⟩ := ordered_eq_append asOf bars
  have hcount : (upTo t (ordered bars)).length = (upTo t (ordered (known asOf bars))).length + (upTo t future).length := by
    rw [heq, upTo, List.filter_append, List.length_append]
    rfl
  have hnone : ∀ last : PriceBar K, t.instant < last.eventTime.instant → last.eventTime.instant < asOf.instant →
      (upTo t future).length = 0 := by
    intro last hlast hasOf
    rw [upTo, List.length_eq_zero_iff, List.filter_eq_nil_iff]
    intro bar hbar hle
    exact absurd (hfuture bar hbar) (not_le.mpr ((of_decide_eq_true hle).trans_lt (hlast.trans hasOf)))
  simp only [forwardReturn_eq_some]
  constructor
  · rintro ⟨start, first, last, hlen, hfirst, hlast, rfl⟩
    have hover := hpast last (List.mem_of_getElem? hlast)
    have hafter := lt_of_getElem? (t := t) hlast (by omega)
    have hlt := (List.getElem?_eq_some_iff.mp hlast).1
    refine ⟨⟨start, first, last, ?_, ?_, ?_, rfl⟩, hover⟩
    · rw [hcount, hnone last hafter hover, Nat.add_zero, hlen]
    · rw [heq, List.getElem?_append_left (by omega), hfirst]
    · rw [heq, List.getElem?_append_left hlt, hlast]
  · rintro ⟨⟨start, first, last, hlen, hfirst, hlast, rfl⟩, hover⟩
    have hafter := lt_of_getElem? (t := t) hlast (by omega)
    have hlt : start + horizon < (ordered (known asOf bars)).length := by
      by_contra hge
      rw [heq, List.getElem?_append_right (not_lt.mp hge)] at hlast
      exact absurd (hfuture last (List.mem_of_getElem? hlast)) (not_le.mpr hover)
    refine ⟨start, first, last, ?_, ?_, ?_, rfl⟩
    · rw [← hlen, hcount, hnone last hafter hover, Nat.add_zero]
    · rw [← hfirst, heq, List.getElem?_append_left (by omega)]
    · rw [← hlast, heq, List.getElem?_append_left hlt]

/-- A bar is known at the feature time. -/
def Started (asOf t : AwareDatetime) (bars : List (PriceBar K)) : Prop :=
  ∃ bar ∈ bars, bar.eventTime.instant ≤ t.instant ∧ bar.eventTime.instant < asOf.instant

/-- The horizon that starts at the feature time is over before `asOf`. -/
def Ended (horizon : Nat) (asOf t : AwareDatetime) (bars : List (PriceBar K)) : Prop :=
  Started asOf t bars ∧
    horizon ≤ (bars.filter fun bar => decide (t.instant < bar.eventTime.instant ∧ bar.eventTime.instant < asOf.instant)).length

theorem length_upTo_known : (upTo t (ordered (known asOf bars))).length = (upTo t (known asOf bars)).length :=
  ((Grouping.sortOn_perm _ (known asOf bars)).filter _).length_eq

theorem started_iff : Started asOf t bars ↔ 0 < (upTo t (known asOf bars)).length := by
  rw [List.length_pos_iff_exists_mem, Started]
  simp only [upTo, known, List.mem_filter, decide_eq_true_eq]
  exact ⟨fun ⟨bar, hbar, hle, hlt⟩ => ⟨bar, ⟨hbar, hlt⟩, hle⟩, fun ⟨bar, ⟨hbar, hlt⟩, hle⟩ => ⟨bar, hbar, hle, hlt⟩⟩

theorem length_known (asOf t : AwareDatetime) (bars : List (PriceBar K)) : (ordered (known asOf bars)).length =
    (upTo t (known asOf bars)).length +
      (bars.filter fun bar => decide (t.instant < bar.eventTime.instant ∧ bar.eventTime.instant < asOf.instant)).length := by
  have hrest : (bars.filter fun bar => decide (t.instant < bar.eventTime.instant ∧ bar.eventTime.instant < asOf.instant)) =
      (known asOf bars).filter fun bar => !decide (bar.eventTime.instant ≤ t.instant) := by
    rw [known, List.filter_filter]
    refine List.filter_congr fun bar _ => ?_
    rw [← decide_not, ← Bool.decide_and, decide_eq_decide, not_le]
  rw [hrest, upTo, ← List.length_eq_length_filter_add]
  exact (Grouping.sortOn_perm _ (known asOf bars)).length_eq

theorem ended_iff : Ended horizon asOf t bars ↔ ∃ r, forwardReturn horizon t (known asOf bars) = some r := by
  have hlen := length_known asOf t bars
  constructor
  · rintro ⟨hstarted, hafter⟩
    obtain ⟨start, hstart⟩ := Nat.exists_eq_succ_of_ne_zero (started_iff.mp hstarted).ne'
    have hfirst : start < (ordered (known asOf bars)).length := by omega
    have hlast : start + horizon < (ordered (known asOf bars)).length := by omega
    exact ⟨_, forwardReturn_eq_some.mpr ⟨start, _, _, length_upTo_known.trans hstart, List.getElem?_eq_getElem hfirst,
      List.getElem?_eq_getElem hlast, rfl⟩⟩
  · rintro ⟨r, hr⟩
    obtain ⟨start, first, last, hstart, -, hlast, -⟩ := forwardReturn_eq_some.mp hr
    have hlt := (List.getElem?_eq_some_iff.mp hlast).1
    rw [length_upTo_known] at hstart
    exact ⟨started_iff.mpr (by omega), by omega⟩

theorem started_of_forwardReturn (hend : t.instant < asOf.instant) (h : forwardReturn horizon t bars = some r) :
    Started asOf t bars := by
  obtain ⟨start, first, last, hstart, -⟩ := forwardReturn_eq_some.mp h
  have hpos : 0 < (upTo t (ordered bars)).length := by omega
  obtain ⟨bar, hbar⟩ := List.exists_mem_of_length_pos hpos
  obtain ⟨hmem, hle⟩ := List.mem_filter.mp hbar
  have hle := of_decide_eq_true hle
  exact ⟨bar, (Grouping.sortOn_perm _ bars).mem_iff.mp hmem, hle, hle.trans_lt hend⟩

/-- Over a horizon that is over, or of a security without a bar, no later bar matters. -/
theorem forwardReturn_eq_known (hh : 1 ≤ horizon) (hend : t.instant < asOf.instant)
    (h : Started asOf t bars → Ended horizon asOf t bars) :
    forwardReturn horizon t bars = forwardReturn horizon t (known asOf bars) := by
  refine Option.ext fun r => ⟨fun hr => ?_, fun hr => ((forwardReturn_known hh).mp hr).1⟩
  obtain ⟨r', hr'⟩ := ended_iff.mp (h (started_of_forwardReturn hend hr))
  rw [← hr, ((forwardReturn_known hh).mp hr').1, hr']

end Horizon

/-! ### Labels by security -/

section Labels
variable {horizon : Nat} {asOf t : AwareDatetime} {sectors : Dict Int String} {prices : Dict Int (List (PriceBar K))}
  {returns returns' : Dict Int (K × AwareDatetime)} {features : List (FeatureRow K)}

/-- The bars of a security. -/
def barsOf (prices : Dict Int (List (PriceBar K))) (sid : Int) : List (PriceBar K) := (prices.get? sid).getD []

def returnsAt (prices : Dict Int (List (PriceBar K))) (horizon : Nat) (t : AwareDatetime) : Dict Int (K × AwareDatetime) :=
  prices.filterMap fun _ bars => forwardReturn horizon t bars

theorem get?_returnsAt (prices : Dict Int (List (PriceBar K))) (horizon : Nat) (t : AwareDatetime) (sid : Int) :
    (returnsAt prices horizon t).get? sid = forwardReturn horizon t (barsOf prices sid) := by
  rw [returnsAt, Dict.get?_filterMap, barsOf]
  cases prices.get? sid with
  | none =>
    refine (Option.eq_none_iff_forall_ne_some.mpr fun r hr => ?_).symm
    obtain ⟨start, first, last, hstart, -⟩ := forwardReturn_eq_some.mp hr
    rw [upTo, ordered, Grouping.sortOn, Option.getD_none, List.mergeSort_nil] at hstart
    exact absurd hstart (Nat.succ_ne_zero start).symm
  | some bars => rfl

def relativeOf (sectors : Dict Int String) (returns : Dict Int (K × AwareDatetime)) : Dict Int K :=
  returns.map fun sid value =>
    let peers := returns.entries.filter fun e => decide (sectors.get? e.1 = sectors.get? sid)
    |value.1 - fmean (peers.map fun e => e.2.1)|

/-- The labels of the returns at one feature time. -/
def labelled (sectors : Dict Int String) (t : AwareDatetime) (returns : Dict Int (K × AwareDatetime)) : List GateLabel :=
  let ranked := ((relativeOf sectors returns).sort fun a b => decide (Ranked a b)).keys
  let top := ranked.take ((ranked.length + 2) / 3)
  (returns.sort fun a b => decide (a.1 ≤ b.1)).entries.map fun e => ⟨e.1, t, e.2.2, decide (e.1 ∈ top)⟩

/-- Every security of the history has a sector. -/
def Covered (sectors : Dict Int String) (prices : Dict Int (List (PriceBar K))) : Prop :=
  ∀ sid ∈ prices.keys, (sectors.get? sid).isSome

theorem labelsAt_eq (hcov : Covered sectors prices) :
    labelsAt prices sectors horizon t = .ok (labelled sectors t (returnsAt prices horizon t)) := by
  have hnone : ((returnsAt prices horizon t).keys.find? fun sid => (sectors.get? sid).isNone) = none := by
    rw [List.find?_eq_none]
    intro sid hsid
    obtain ⟨⟨k, v⟩, he, rfl⟩ := List.mem_map.mp hsid
    obtain ⟨bars, hbars, -⟩ := Dict.mem_filterMap.mp he
    have hsome := hcov k (List.mem_map_of_mem hbars)
    rw [Option.isSome_iff_ne_none] at hsome
    simpa using hsome
  have hrelative : relativeReturns (returnsAt prices horizon t) sectors = .ok (relativeOf sectors (returnsAt prices horizon t)) := by
    rw [relativeReturns, hnone]
    rfl
  rw [labelsAt]
  change (relativeReturns (returnsAt prices horizon t) sectors >>= _) = _
  rw [hrelative]
  rfl

theorem buildLabels_eq (hcov : Covered sectors prices) (times : List AwareDatetime) : buildLabels times prices sectors horizon =
    .ok (times.map fun t => labelled sectors t (returnsAt prices horizon t)).flatten := by
  have hall : times.mapM (labelsAt prices sectors horizon) =
      .ok (times.map fun t => labelled sectors t (returnsAt prices horizon t)) := by
    rw [Except.mapM_congr fun t _ => labelsAt_eq hcov]
    exact List.mapM_pure
  rw [buildLabels, hall]
  rfl

omit [LinearOrder K] in
theorem fmean_perm {l l' : List K} (h : l.Perm l') : fmean l = fmean l' := by
  rw [fmean, fmean, h.sum_eq, h.length_eq]

theorem relativeOf_perm (h : returns.entries.Perm returns'.entries) :
    (relativeOf sectors returns).entries.Perm (relativeOf sectors returns').entries := by
  have hpeers : ∀ sid, fmean ((returns.entries.filter fun e => decide (sectors.get? e.1 = sectors.get? sid)).map fun e => e.2.1) =
      fmean ((returns'.entries.filter fun e => decide (sectors.get? e.1 = sectors.get? sid)).map fun e => e.2.1) :=
    fun sid => fmean_perm ((h.filter _).map _)
  simp only [relativeOf, Dict.entries_map, hpeers]
  exact h.map _

/-- The labels do not depend on the order of the securities. -/
theorem labelled_perm (h : returns.entries.Perm returns'.entries) : labelled sectors t returns = labelled sectors t returns' := by
  have hranked : ((relativeOf sectors returns).sort fun a b => decide (Ranked a b)) =
      (relativeOf sectors returns').sort fun a b => decide (Ranked a b) :=
    Dict.sort_eq_of_perm (relativeOf_perm h) fun _ _ _ _ hab hba => ranked_antisymm hab hba
  have : IsTrans (Int × K × AwareDatetime) fun a b => a.1 ≤ b.1 := ⟨fun _ _ _ hab hbc => le_trans hab hbc⟩
  have : Std.Total (α := Int × K × AwareDatetime) fun a b => a.1 ≤ b.1 := ⟨fun a b => le_total a.1 b.1⟩
  have hsorted : (returns.sort fun a b => decide (a.1 ≤ b.1)) = returns'.sort fun a b => decide (a.1 ≤ b.1) := by
    refine Dict.sort_eq_of_perm (r := fun a b => a.1 ≤ b.1) h fun a ha b hb hab hba => ?_
    exact List.inj_on_of_nodup_map returns.nodup ha hb (le_antisymm hab hba)
  simp only [labelled, hranked, hsorted]

theorem labelled_of_sorted (hkeys : returns.entries.Pairwise fun a b => a.1 ≤ b.1)
    (hranked : (relativeOf sectors returns).entries.Pairwise Ranked) : labelled sectors t returns =
      returns.entries.map fun e => ⟨e.1, t, e.2.2, decide (e.1 ∈ returns.keys.take ((returns.keys.length + 2) / 3))⟩ := by
  have hrelative : ((relativeOf sectors returns).sort fun a b => decide (Ranked a b)).keys = returns.keys := by
    rw [Dict.keys, Dict.entries_sort, List.mergeSort_of_pairwise (hranked.imp fun h => decide_eq_true h), relativeOf,
      Dict.entries_map, List.map_map]
    rfl
  rw [labelled, hrelative, Dict.entries_sort, List.mergeSort_of_pairwise (hkeys.imp fun h => decide_eq_true h)]

theorem of_mem_labelled {label : GateLabel} (h : label ∈ labelled sectors t (returnsAt prices horizon t)) :
    ∃ r, forwardReturn horizon t (barsOf prices label.securityId) = some r ∧ label.featureTime = t ∧ label.labelEnd = r.2 := by
  obtain ⟨e, he, rfl⟩ := List.mem_map.mp h
  rw [Dict.entries_sort, List.mem_mergeSort] at he
  exact ⟨e.2, (get?_returnsAt prices horizon t e.1).symm.trans (Dict.get?_eq_some.mpr he), rfl, rfl⟩

omit [Field K] [LinearOrder K] in
theorem of_get?_byKey {key : Int × Int} {row : FeatureRow K} (h : (byKey features).get? key = some row) :
    ∃ row ∈ features, (row.securityId.val, row.eventTime.instant) = key := by
  rcases Dict.of_get?_foldl_set h with ⟨row, hrow, hkey, -⟩ | hempty
  · exact ⟨row, hrow, hkey⟩
  · cases hempty

/-- Without a security that has a feature row and whose horizon is over, nothing is eligible. -/
theorem eligible_eq_nil (hh : 1 ≤ horizon)
    (hnone : ∀ row ∈ features, row.eventTime.instant = t.instant → ¬Ended horizon asOf t (barsOf prices row.securityId.val)) :
    eligibleTrainingSet features (labelled sectors t (returnsAt prices horizon t)) asOf = [] := by
  rw [eligibleTrainingSet, List.filterMap_eq_nil_iff]
  intro label hlabel
  obtain ⟨r, hr, htime, hend⟩ := of_mem_labelled hlabel
  split
  · next hlt =>
    rw [Option.map_eq_none_iff, Option.eq_none_iff_forall_ne_some]
    intro row hrow
    obtain ⟨row, hrow, hkey⟩ := of_get?_byKey hrow
    obtain ⟨hsid, hinstant⟩ := Prod.mk.injEq _ _ _ _ ▸ hkey
    refine hnone row hrow (hinstant.trans (congrArg _ htime)) (ended_iff.mpr ⟨r, (forwardReturn_known hh).mpr ⟨?_, ?_⟩⟩)
    · rw [hsid, hr]
    · rwa [← hend]
  · rfl

/-- Two histories of securities with a sector that have the same bars before `asOf`. -/
structure SamePast (sectors : Dict Int String) (asOf : AwareDatetime) (prices prices' : Dict Int (List (PriceBar K))) : Prop where
  known : ∀ sid, known asOf (barsOf prices sid) = known asOf (barsOf prices' sid)
  covered : Covered sectors prices
  covered' : Covered sectors prices'

/-- Where a security with a feature row has its horizon over, so has every security that has a bar. -/
def PeersSettled (features : List (FeatureRow K)) (times : List AwareDatetime) (horizon : Nat) (asOf : AwareDatetime)
    (prices : Dict Int (List (PriceBar K))) : Prop :=
  ∀ t ∈ times, ∀ row ∈ features, row.eventTime.instant = t.instant →
    Ended horizon asOf t (barsOf prices row.securityId.val) →
      ∀ sid, Started asOf t (barsOf prices sid) → Ended horizon asOf t (barsOf prices sid)

/-- What a date trains on. -/
def trainingSet (features : List (FeatureRow K)) (times : List AwareDatetime) (sectors : Dict Int String) (horizon : Nat)
    (asOf : AwareDatetime) (prices : Dict Int (List (PriceBar K))) : Except LabelError (List (TrainingExample K)) :=
  (buildLabels times prices sectors horizon).map fun labels => eligibleTrainingSet features labels asOf

theorem started_congr {bars bars' : List (PriceBar K)} (h : known asOf bars = known asOf bars') :
    Started asOf t bars ↔ Started asOf t bars' := by rw [started_iff, started_iff, h]

theorem ended_congr {bars bars' : List (PriceBar K)} (h : known asOf bars = known asOf bars') :
    Ended horizon asOf t bars ↔ Ended horizon asOf t bars' := by rw [ended_iff, ended_iff, h]

theorem Ended.lt {bars : List (PriceBar K)} (h : Ended horizon asOf t bars) (hh : 1 ≤ horizon) : t.instant < asOf.instant := by
  obtain ⟨bar, hbar⟩ := List.exists_mem_of_length_pos (hh.trans h.2)
  have hbetween := of_decide_eq_true (List.mem_filter.mp hbar).2
  exact hbetween.1.trans hbetween.2

variable {times : List AwareDatetime} {prices' : Dict Int (List (PriceBar K))}

/-- One feature time. Either nothing of it is eligible, or no return of it is read from a later bar. -/
theorem eligible_congr (hh : 1 ≤ horizon) (hsettled : PeersSettled features times horizon asOf prices)
    (hpast : SamePast sectors asOf prices prices') (ht : t ∈ times) :
    eligibleTrainingSet features (labelled sectors t (returnsAt prices' horizon t)) asOf =
      eligibleTrainingSet features (labelled sectors t (returnsAt prices horizon t)) asOf := by
  by_cases hsome : ∃ row ∈ features, row.eventTime.instant = t.instant ∧ Ended horizon asOf t (barsOf prices row.securityId.val)
  · obtain ⟨row, hrow, htime, hended⟩ := hsome
    have hall := hsettled t ht row hrow htime hended
    have hend := hended.lt hh
    have hreturns : ∀ sid, (returnsAt prices' horizon t).get? sid = (returnsAt prices horizon t).get? sid := by
      intro sid
      have hknown := hpast.known sid
      rw [get?_returnsAt, get?_returnsAt, forwardReturn_eq_known hh hend (hall sid), hknown]
      refine forwardReturn_eq_known hh hend fun hstarted => ?_
      exact (ended_congr hknown).mp (hall sid ((started_congr hknown).mpr hstarted))
    rw [labelled_perm (Dict.entries_perm hreturns)]
  · have hnone : ∀ row ∈ features, row.eventTime.instant = t.instant →
        ¬Ended horizon asOf t (barsOf prices row.securityId.val) := fun row hrow htime hended => hsome ⟨row, hrow, htime, hended⟩
    rw [eligible_eq_nil hh hnone, eligible_eq_nil hh]
    exact fun row hrow htime hended => hnone row hrow htime ((ended_congr (hpast.known _)).mpr hended)

theorem trainingSet_eq (hcov : Covered sectors prices) : trainingSet features times sectors horizon asOf prices =
    .ok (times.map fun t => eligibleTrainingSet features (labelled sectors t (returnsAt prices horizon t)) asOf).flatten := by
  rw [trainingSet, buildLabels_eq hcov, Except.map, eligibleTrainingSet, List.filterMap_flatten, List.map_map]
  rfl

theorem trainingSet_congr (hh : 1 ≤ horizon) (hsettled : PeersSettled features times horizon asOf prices)
    (hpast : SamePast sectors asOf prices prices') : trainingSet features times sectors horizon asOf prices' =
      trainingSet features times sectors horizon asOf prices := by
  have htimes := List.map_congr_left fun t ht => eligible_congr hh hsettled hpast (t := t) ht
  rw [trainingSet_eq hpast.covered, trainingSet_eq hpast.covered', htimes]

end Labels
end Gate

/-! ### The gate and the book -/

namespace Walkforward
open Gate
variable {K : Type} [Field K] [LinearOrder K] [IsStrictOrderedRing K]

/-- A date run on the labels of a price history. -/
def backtest (gateFns : GateFns K) (mathFns : Sizing.MathFns K) (runId : AwareDatetime → String → UUID) (asOf : AwareDatetime)
    (inputs : WalkForwardInputs K) (riskConfig : RiskConfig K) (gateK : Nat) (configHash : String) (times : List AwareDatetime)
    (sectors : Dict Int String) (horizon : Nat) (prices : Dict Int (List (PriceBar K))) :
    Except LabelError (Except Sizing.SizingError (WalkForwardResult K)) :=
  (buildLabels times prices sectors horizon).map fun labels =>
    runDate gateFns mathFns runId asOf { inputs with labels := labels } riskConfig gateK configHash

/-- No bar at or after `asOf` changes what a date trains on, its gate or its book. -/
def SeesNoFuture (inputs : WalkForwardInputs K) (times : List AwareDatetime) (sectors : Dict Int String) (horizon : Nat)
    (asOf : AwareDatetime) (prices : Dict Int (List (PriceBar K))) : Prop :=
  ∀ prices', SamePast sectors asOf prices prices' →
    trainingSet inputs.trainingFeatures times sectors horizon asOf prices' =
      trainingSet inputs.trainingFeatures times sectors horizon asOf prices ∧
    ∀ (gateFns : GateFns K) (mathFns : Sizing.MathFns K) (runId : AwareDatetime → String → UUID) (riskConfig : RiskConfig K)
      (gateK : Nat) (configHash : String),
      backtest gateFns mathFns runId asOf inputs riskConfig gateK configHash times sectors horizon prices' =
        backtest gateFns mathFns runId asOf inputs riskConfig gateK configHash times sectors horizon prices

variable {inputs : WalkForwardInputs K} {times : List AwareDatetime} {sectors : Dict Int String} {horizon : Nat}
  {asOf : AwareDatetime} {prices prices' : Dict Int (List (PriceBar K))}

/-- A date reads its labels only through what it trains on. -/
theorem runDate_congr {gateFns : GateFns K} {mathFns : Sizing.MathFns K} {runId : AwareDatetime → String → UUID}
    {riskConfig : RiskConfig K} {gateK : Nat} {configHash : String} {labels labels' : List GateLabel}
    (h : eligibleTrainingSet inputs.trainingFeatures labels asOf = eligibleTrainingSet inputs.trainingFeatures labels' asOf) :
    runDate gateFns mathFns runId asOf { inputs with labels := labels } riskConfig gateK configHash =
      runDate gateFns mathFns runId asOf { inputs with labels := labels' } riskConfig gateK configHash := by
  simp only [runDate, h]

theorem seesNoFuture_of_settled (hh : 1 ≤ horizon)
    (hsettled : PeersSettled inputs.trainingFeatures times horizon asOf prices) :
    SeesNoFuture inputs times sectors horizon asOf prices := by
  intro prices' hpast
  have htraining := trainingSet_congr hh hsettled hpast
  refine ⟨htraining, fun gateFns mathFns runId riskConfig gateK configHash => ?_⟩
  rw [trainingSet, trainingSet, buildLabels_eq hpast.covered, buildLabels_eq hpast.covered'] at htraining
  rw [backtest, backtest, buildLabels_eq hpast.covered, buildLabels_eq hpast.covered']
  exact congrArg Except.ok (runDate_congr (Except.ok.inj htraining))

/-! ### A peer that misses a bar -/

def dayOf (n : Nat) : AwareDatetime := ⟨n * 86400000000, 0⟩

def barOn (sid : SecurityId) (n : Nat) : PriceBar ℚ :=
  { eventTime := dayOf n
    availableAt := dayOf n
    sourceVersion := ⟨"iex", by decide⟩
    securityId := sid
    «open» := ⟨100, by norm_num⟩
    high := ⟨100, by norm_num⟩
    low := ⟨100, by norm_num⟩
    close := ⟨100, by norm_num⟩
    volume := ⟨1, by norm_num⟩
    feed := .iex
    within := by norm_num
    version_is_feed := rfl }

def firstId : SecurityId := ⟨1, Samples.one_securityId⟩

def secondId : SecurityId := ⟨2, Samples.two_securityId⟩

/-- Security 2 has a bar on each of the days 0 to 21, and security 1 on the given days. -/
def twoHistories (days : List Nat) : Dict Int (List (PriceBar ℚ)) :=
  ⟨[(1, days.map (barOn firstId)), (2, (List.range 22).map (barOn secondId))], by simp⟩

def oneSector : Dict Int String := ⟨[(2, "Energy"), (1, "Energy")], by decide⟩

/-- A feature row of security 2 on day 0. -/
def oneFeature : WalkForwardInputs ℚ :=
  { rows := []
    trainingFeatures := [⟨⟨dayOf 0, dayOf 0, ⟨"v1", Samples.label_v1⟩⟩, secondId, ⟨"v1", Samples.label_v1⟩, Dict.empty⟩]
    labels := []
    sectors := oneSector
    volatilities := Dict.empty
    entityTokens := Dict.empty }

theorem barsOf_twoHistories (days : List Nat) (sid : Int) : barsOf (twoHistories days) sid =
    if sid = 1 then days.map (barOn firstId) else if sid = 2 then (List.range 22).map (barOn secondId) else [] := by
  rw [barsOf, Dict.get?, twoHistories, List.lookup_cons, List.lookup_cons]
  split_ifs with hone htwo
  · rw [hone]
    rfl
  · rw [htwo]
    rfl
  · rw [beq_eq_false_iff_ne.mpr hone, beq_eq_false_iff_ne.mpr htwo]
    rfl

theorem covered_twoHistories (days : List Nat) : Covered oneSector (twoHistories days) := by
  intro sid hsid
  have hsid : sid ∈ [(1 : Int), 2] := hsid
  rcases List.mem_cons.mp hsid with rfl | hsid
  · rfl
  · rw [List.mem_singleton.mp hsid]
    rfl

theorem barOn_sorted (sid : SecurityId) {days : List Nat} (h : days.Pairwise (· ≤ ·)) :
    (days.map (barOn sid)).Pairwise fun a b => a.eventTime.instant ≤ b.eventTime.instant := by
  refine List.pairwise_map.mpr (h.imp fun hab => ?_)
  simp only [barOn, dayOf]
  omega

theorem forwardReturn_found :
    forwardReturn 21 (dayOf 0) ((List.range 22).map (barOn secondId)) = some (0, dayOf 21) ∧
    forwardReturn 21 (dayOf 0) ((List.range 21 ++ [22]).map (barOn firstId)) = some (0, dayOf 22) := by
  rw [forwardReturn, forwardReturn, Grouping.sortOn_of_sorted (barOn_sorted secondId (by decide)),
    Grouping.sortOn_of_sorted (barOn_sorted firstId (by decide))]
  decide +kernel

theorem forwardReturn_missing : forwardReturn 21 (dayOf 0) ((List.range 21).map (barOn firstId)) = none := by
  rw [forwardReturn, Grouping.sortOn_of_sorted (barOn_sorted firstId (by decide))]
  decide

theorem labelled_missing : labelled oneSector (dayOf 0) (returnsAt (twoHistories (List.range 21)) 21 (dayOf 0)) =
    [⟨2, dayOf 0, dayOf 21, true⟩] := by
  have hentries : (returnsAt (twoHistories (List.range 21)) 21 (dayOf 0)).entries = [(2, 0, dayOf 21)] := by
    simp only [returnsAt, Dict.filterMap, twoHistories, List.filterMap_cons, List.filterMap_nil, forwardReturn_missing,
      forwardReturn_found.1, Option.map_some, Option.map_none]
  have hrelative : (relativeOf oneSector (returnsAt (twoHistories (List.range 21)) 21 (dayOf 0))).entries.Pairwise Ranked := by
    rw [relativeOf, Dict.entries_map, hentries]
    exact List.pairwise_singleton _ _
  rw [labelled_of_sorted (by rw [hentries]; exact List.pairwise_singleton _ _) hrelative, Dict.keys, hentries]
  rfl

theorem labelled_late : labelled oneSector (dayOf 0) (returnsAt (twoHistories (List.range 21 ++ [22])) 21 (dayOf 0)) =
    [⟨1, dayOf 0, dayOf 22, true⟩, ⟨2, dayOf 0, dayOf 21, false⟩] := by
  have hentries : (returnsAt (twoHistories (List.range 21 ++ [22])) 21 (dayOf 0)).entries =
      [(1, 0, dayOf 22), (2, 0, dayOf 21)] := by
    simp only [returnsAt, Dict.filterMap, twoHistories, List.filterMap_cons, List.filterMap_nil, forwardReturn_found.2,
      forwardReturn_found.1, Option.map_some]
  have hrelative : (relativeOf oneSector (returnsAt (twoHistories (List.range 21 ++ [22])) 21 (dayOf 0))).entries.Pairwise
      Ranked := by
    rw [relativeOf, Dict.entries_map, hentries]
    decide +kernel
  rw [labelled_of_sorted (by rw [hentries]; decide) hrelative, Dict.keys, hentries]
  rfl

/-- Security 1 misses day 21, so its horizon ends on day 22, and its return takes the first rank from security 2. -/
theorem future_ranks_past : ¬SeesNoFuture oneFeature [dayOf 0] oneSector 21 (dayOf 22) (twoHistories (List.range 21)) := by
  intro h
  have hpast : SamePast oneSector (dayOf 22) (twoHistories (List.range 21)) (twoHistories (List.range 21 ++ [22])) := by
    refine ⟨fun sid => ?_, covered_twoHistories _, covered_twoHistories _⟩
    rw [barsOf_twoHistories, barsOf_twoHistories, List.map_append, known, known]
    split_ifs
    · rw [List.filter_append, List.map_singleton, List.filter_singleton]
      exact (List.append_nil _).symm
    · rfl
    · rfl
  have htraining := (h _ hpast).1
  rw [trainingSet_eq (covered_twoHistories _), trainingSet_eq (covered_twoHistories _), List.map_singleton, List.map_singleton,
    labelled_late, labelled_missing] at htraining
  have htargets := congrArg (fun r => r.map fun examples => examples.map (·.target)) htraining
  revert htargets
  decide

theorem peersSettled_twoHistories : PeersSettled oneFeature.trainingFeatures [dayOf 0] 21 (dayOf 22) (twoHistories (List.range 22)) := by
  intro t ht row _ _ _ sid hstarted
  obtain rfl := List.mem_singleton.mp ht
  rw [barsOf_twoHistories] at hstarted ⊢
  split_ifs at hstarted ⊢
  · exact ⟨hstarted, by decide⟩
  · exact ⟨hstarted, by decide⟩
  · obtain ⟨bar, hbar, -⟩ := hstarted
    cases hbar

theorem complete_histories : SeesNoFuture oneFeature [dayOf 0] oneSector 21 (dayOf 22) (twoHistories (List.range 22)) :=
  seesNoFuture_of_settled (by decide) peersSettled_twoHistories

end Walkforward
end AsymmetricCommittee
