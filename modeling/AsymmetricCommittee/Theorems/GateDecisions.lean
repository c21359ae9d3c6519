import AsymmetricCommittee.Theorems.GateFit
import AsymmetricCommittee.Theorems.GateRanking
import Mathlib

/-! What the gate lets pass: the first scores of the rows, one name a security, and with every further name no less of the top
    third of the labels. -/

namespace AsymmetricCommittee
namespace Gate

section Decisions
variable {K : Type} [Field K] [LinearOrder K] {fns : GateFns K} {model : LogisticGate K} {rows : List (FeatureRow K)}
  {sid : Int} {x : K}

/-- The score of each security; a later row replaces an earlier one. -/
def scoresOf (fns : GateFns K) (model : LogisticGate K) (rows : List (FeatureRow K)) : Dict Int K :=
  rows.foldl (fun d row => d.set row.securityId.val (model.score fns row.values)) Dict.empty

theorem mem_scoresOf : sid ∈ (scoresOf fns model rows).keys ↔ ∃ row ∈ rows, row.securityId.val = sid := by
  rw [Dict.mem_keys, scoresOf]
  constructor
  · intro h
    obtain ⟨x, hx⟩ := Option.isSome_iff_exists.mp h
    rcases Dict.of_get?_foldl_set hx with ⟨row, hrow, hkey, -⟩ | hempty
    · exact ⟨row, hrow, hkey⟩
    · cases hempty
  · intro h
    obtain ⟨row, hrow, rfl⟩ := h
    exact Dict.isSome_get?_foldl_set (.inl ⟨row, hrow, rfl⟩)

theorem length_scoresOf : (scoresOf fns model rows).keys.length = (rows.map (·.securityId)).dedup.length := by
  have hperm : (scoresOf fns model rows).keys.Perm ((rows.map (·.securityId)).dedup.map Subtype.val) := by
    refine (List.perm_ext_iff_of_nodup (scoresOf fns model rows).nodup
      ((List.nodup_dedup _).map Subtype.val_injective)).mpr fun sid => ?_
    refine mem_scoresOf.trans ?_
    rw [List.mem_map]
    constructor
    · intro h
      obtain ⟨row, hrow, rfl⟩ := h
      exact ⟨row.securityId, List.mem_dedup.mpr (List.mem_map_of_mem hrow), rfl⟩
    · intro h
      obtain ⟨id, hid, rfl⟩ := h
      obtain ⟨row, hrow, rfl⟩ := List.mem_map.mp (List.mem_dedup.mp hid)
      exact ⟨row, hrow, rfl⟩
  rw [hperm.length_eq, List.length_map]

omit [Field K] [LinearOrder K] in
theorem components_eq (hnames : ∀ name ∈ model.names, 1 ≤ name.length ∧ name.length ≤ 128) :
    ∃ parts, components model = .ok parts := by
  refine Except.mapM_ok_of_forall fun entry hentry => ?_
  have hname := hnames entry.1 (List.of_mem_zip hentry).1
  exact ⟨_, dif_pos hname⟩

variable [IsStrictOrderedRing K]

theorem score_mem (hexp : ∀ x, 0 < fns.exp x) (model : LogisticGate K) (rows : List (FeatureRow K)) (sid : Int) :
    0 ≤ ((scoresOf fns model rows).get? sid).getD 0 ∧ ((scoresOf fns model rows).get? sid).getD 0 ≤ 1 := by
  cases hx : (scoresOf fns model rows).get? sid with
  | none => exact ⟨le_rfl, zero_le_one⟩
  | some x =>
    rcases Dict.of_get?_foldl_set hx with ⟨row, -, -, rfl⟩ | hempty
    · have hlink := sigmoid_mem hexp (model.intercept + ((model.names.zip (model.means.zip (model.scales.zip model.coefficients))).map
        fun x => x.2.2.2 * ((number fns.float (row.values.get? x.1)).getD x.2.1 - x.2.1) / x.2.2.1).sum)
      exact ⟨hlink.1.le, hlink.2.le⟩
    · cases hempty

/-- The decision on one row. -/
def decisionOn (hexp : ∀ x, 0 < fns.exp x) (model : LogisticGate K) (rows : List (FeatureRow K)) (runId : UUID)
    (asOf : AwareDatetime) (topK : Nat) (parts : List (Label × K)) (row : FeatureRow K) : GateDecision K :=
  ⟨runId, row.securityId, asOf, row.featureSetVersion, gateModelVersion, ⟨_, score_mem hexp model rows row.securityId.val⟩,
    decide (row.securityId.val ∈ topKeys (scoresOf fns model rows) topK), parts⟩

theorem decideRows_eq (hexp : ∀ x, 0 < fns.exp x) {parts : List (Label × K)} (hparts : components model = .ok parts)
    (rows : List (FeatureRow K)) (runId : UUID) (asOf : AwareDatetime) (topK : Nat) :
    decideRows fns model rows runId asOf topK = .ok (rows.map (decisionOn hexp model rows runId asOf topK parts)) := by
  have hrow : ∀ row : FeatureRow K, (do
      let score := ((scoresOf fns model rows).get? row.securityId.val).getD 0
      if h : 0 ≤ score ∧ score ≤ 1 then
        let parts ← components model
        return (⟨runId, row.securityId, asOf, row.featureSetVersion, gateModelVersion, ⟨score, h⟩,
          decide (row.securityId.val ∈ topKeys (scoresOf fns model rows) topK), parts⟩ : GateDecision K)
      else throw ValidationError.probability) = Except.ok (decisionOn hexp model rows runId asOf topK parts row) := by
    intro row
    dsimp only
    rw [dif_pos (score_mem hexp model rows row.securityId.val), hparts]
    rfl
  have hall : decideRows fns model rows runId asOf topK =
      rows.mapM fun row => Except.ok (decisionOn hexp model rows runId asOf topK parts row) :=
    congrArg (fun f => List.mapM f rows) (funext hrow)
  rw [hall]
  exact List.mapM_pure

variable {runId : UUID} {asOf : AwareDatetime} {topK : Nat} {parts : List (Label × K)} {hexp : ∀ x, 0 < fns.exp x}

theorem passed_iff : sid ∈ ((rows.map (decisionOn hexp model rows runId asOf topK parts)).filter (·.passed)).map
    (fun d => d.securityId.val) ↔ sid ∈ topKeys (scoresOf fns model rows) topK := by
  rw [List.filter_map, List.map_map, List.mem_map]
  constructor
  · intro h
    obtain ⟨row, hrow, rfl⟩ := h
    exact of_decide_eq_true (List.mem_filter.mp hrow).2
  · intro h
    obtain ⟨row, hrow, rfl⟩ := mem_scoresOf.mp (mem_keys_of_mem_topKeys h)
    exact ⟨row, List.mem_filter.mpr ⟨hrow, decide_eq_true h⟩, rfl⟩

/-- The share of a list that meets a condition grows with the condition. -/
theorem share_mono {l : List Int} {p q : Int → Bool} (h : ∀ x ∈ l, p x = true → q x = true) :
    ((l.filter p).length : K) / l.length ≤ (l.filter q).length / l.length := by
  refine div_le_div_of_nonneg_right ?_ (Nat.cast_nonneg _)
  rw [← List.countP_eq_length_filter, ← List.countP_eq_length_filter]
  exact_mod_cast List.countP_mono_left h

theorem share_le_one (l : List Int) (p : Int → Bool) : ((l.filter p).length : K) / l.length ≤ 1 := by
  refine div_le_one_of_le₀ ?_ (Nat.cast_nonneg _)
  exact_mod_cast List.length_filter_le p l

/-- To let more names pass never loses recall, and a gate that lets all names pass has all of it. -/
theorem recall_mono (hexp : ∀ x, 0 < fns.exp x) (hnames : ∀ name ∈ model.names, 1 ≤ name.length ∧ name.length ≤ 128)
    (rows : List (FeatureRow K)) (runId : UUID) (asOf : AwareDatetime) (labels : List GateLabel) {few many : Nat} (h : few ≤ many) :
    ∃ ds ds', decideRows fns model rows runId asOf few = .ok ds ∧ decideRows fns model rows runId asOf many = .ok ds' ∧
      (((∀ label ∈ labels, label.isTopTercile = false) ∧ «recall» ds labels = none ∧ «recall» ds' labels = none) ∨
        ∃ r r', «recall» ds labels = some r ∧ «recall» ds' labels = some r' ∧ 0 ≤ r ∧ r ≤ r' ∧ r' ≤ 1 ∧
          ((rows.map (·.securityId)).dedup.length ≤ many →
            (∀ label ∈ labels, label.isTopTercile = true → ∃ row ∈ rows, row.securityId.val = label.securityId) → r' = 1)) := by
  obtain ⟨parts, hparts⟩ := components_eq hnames
  refine ⟨_, _, decideRows_eq hexp hparts rows runId asOf few, decideRows_eq hexp hparts rows runId asOf many, ?_⟩
  simp only [«recall», passed_iff]
  generalize hpositives : ((labels.filter fun x => x.isTopTercile).map fun x => x.securityId).dedup = positives
  have hmem : ∀ sid, sid ∈ positives ↔ ∃ label ∈ labels, label.isTopTercile = true ∧ label.securityId = sid := by
    intro sid
    rw [← hpositives, List.mem_dedup, List.mem_map]
    refine exists_congr fun label => ?_
    rw [List.mem_filter, and_assoc]
  by_cases hnil : positives = []
  · refine .inl ⟨fun label hlabel => ?_, if_pos hnil, if_pos hnil⟩
    by_contra htop
    have hin := (hmem label.securityId).mpr ⟨label, hlabel, Bool.eq_true_of_not_eq_false htop, rfl⟩
    rw [hnil] at hin
    cases hin
  · refine .inr ⟨_, _, if_neg hnil, if_neg hnil, ?_, ?_, share_le_one _ _, fun hall hrows => ?_⟩
    · exact div_nonneg (Nat.cast_nonneg _) (Nat.cast_nonneg _)
    · refine share_mono fun sid _ hsid => ?_
      exact decide_eq_true (topKeys_subset h (of_decide_eq_true hsid))
    · have hfull : (positives.filter fun sid => decide (sid ∈ topKeys (scoresOf fns model rows) many)) = positives := by
        refine List.filter_eq_self.mpr fun sid hsid => decide_eq_true ?_
        obtain ⟨label, hlabel, htop, rfl⟩ := (hmem sid).mp hsid
        rw [topKeys_all (length_scoresOf.trans_le hall), mem_scoresOf]
        exact hrows label hlabel htop
      rw [hfull]
      exact div_self (Nat.cast_ne_zero.mpr (mt List.length_eq_zero_iff.mp hnil))

end Decisions

section Samples
open Walkforward

/-- The score of a row grows with its one value. -/
def oneModel : LogisticGate ℝ := ⟨["x"], [0], [1], [1], 0⟩

theorem oneModel_names : ∀ name ∈ oneModel.names, 1 ≤ name.length ∧ name.length ≤ 128 := by
  intro name hname
  rw [List.mem_singleton.mp hname]
  decide

local instance second_atLeastTwo : Nat.AtLeastTwo 2 := inferInstance

local instance third_atLeastTwo : Nat.AtLeastTwo 3 := inferInstance

def threeRows : List (FeatureRow ℝ) := [oneRow firstId 1, oneRow secondId 3, oneRow firstId 2]

theorem recall_mono_one : ∃ ds ds', decideRows realFns oneModel threeRows ⟨1⟩ ⟨0, 0⟩ 0 = .ok ds ∧
    decideRows realFns oneModel threeRows ⟨1⟩ ⟨0, 0⟩ 1 = .ok ds' ∧
    ∃ r r', «recall» ds [⟨1, ⟨0, 0⟩, ⟨0, 0⟩, true⟩] = some r ∧ «recall» ds' [⟨1, ⟨0, 0⟩, ⟨0, 0⟩, true⟩] = some r' ∧ r ≤ r' := by
  have hexp : ∀ x, 0 < realFns.exp x := Real.exp_pos
  obtain ⟨ds, ds', hds, hds', hcases⟩ := recall_mono hexp oneModel_names threeRows ⟨1⟩ ⟨0, 0⟩
    [⟨1, ⟨0, 0⟩, ⟨0, 0⟩, true⟩] (Nat.zero_le 1)
  rcases hcases with ⟨hnone, -⟩ | ⟨r, r', hr, hr', -, hle, -⟩
  · exact absurd (hnone _ List.mem_cons_self) (by decide)
  · exact ⟨ds, ds', hds, hds', r, r', hr, hr', hle⟩

end Samples

end Gate
end AsymmetricCommittee
