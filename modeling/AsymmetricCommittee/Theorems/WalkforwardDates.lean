import AsymmetricCommittee.Evaluation.Walkforward
import AsymmetricCommittee.Theorems.BaselineBook
import AsymmetricCommittee.Theorems.GateDecisions
import Mathlib

/-! One date of the walk-forward. Its decisions and its book do not depend on the units of the features, and the book holds
    only names that passed the gate, within the limits. -/

namespace AsymmetricCommittee
open Gate (Rescaled ExampleRescaled number GateFns GateLabel eligibleTrainingSet byKey fitLogistic decideRows)
open Descent (Scale IsDeviation)

section Units
variable {K : Type} [Field K] [LinearOrder K] {fl : PyFloat K} {a b : String → K} {rows rows' : List (FeatureRow K)}
  {name : String}

/-- The same row, with its numbers in other units. -/
def RowRescaled (fl : PyFloat K) (a b : String → K) (row row' : FeatureRow K) : Prop :=
  row'.securityId = row.securityId ∧ row'.eventTime = row.eventTime ∧ row'.featureSetVersion = row.featureSetVersion ∧
    Rescaled fl a b row.values row'.values

/-! ### The gate -/

omit [LinearOrder K] in
theorem byKey_rescaled (h : List.Forall₂ (RowRescaled fl a b) rows rows') (key : Int × Int) :
    Option.Rel (RowRescaled fl a b) ((byKey rows).get? key) ((byKey rows').get? key) := by
  let Same (d d' : Dict (Int × Int) (FeatureRow K)) : Prop := ∀ key, Option.Rel (RowRescaled fl a b) (d.get? key) (d'.get? key)
  have hall : Same (byKey rows) (byKey rows') := by
    refine Forall₂.foldl_rel h (fun row row' d d' hrow hd key => ?_) fun key => .none
    rw [Dict.get?_set, Dict.get?_set, hrow.1, hrow.2.1]
    split
    · exact .some hrow
    · exact hd key
  exact hall key

omit [LinearOrder K] in
theorem eligible_rescaled (h : List.Forall₂ (RowRescaled fl a b) rows rows') (labels : List GateLabel) (asOf : AwareDatetime) :
    List.Forall₂ (ExampleRescaled fl a b) (eligibleTrainingSet rows labels asOf) (eligibleTrainingSet rows' labels asOf) := by
  refine Forall₂.filterMap_rel fun label _ => ?_
  split
  · have hrow := byKey_rescaled h (label.securityId, label.featureTime.instant)
    generalize (byKey rows).get? (label.securityId, label.featureTime.instant) = x at hrow
    generalize (byKey rows').get? (label.securityId, label.featureTime.instant) = y at hrow
    cases hrow with
    | none => exact .none
    | some hrow => exact .some ⟨rfl, hrow.2.2.2⟩
  · exact .none

theorem decideRows_rescaled {fns : GateFns K} {model model' : Gate.LogisticGate K}
    (h : List.Forall₂ (RowRescaled fns.float a b) rows rows') (hnames : model'.names = model.names)
    (hcoefficients : model'.coefficients = model.coefficients)
    (hscore : ∀ values values', Rescaled fns.float a b values values' → model'.score fns values' = model.score fns values)
    (runId : UUID) (asOf : AwareDatetime) (topK : Nat) :
    decideRows fns model' rows' runId asOf topK = decideRows fns model rows runId asOf topK := by
  have hscores : (rows'.foldl (fun d row => d.set row.securityId.val (model'.score fns row.values)) (Dict.empty : Dict Int K)) =
      rows.foldl (fun d row => d.set row.securityId.val (model.score fns row.values)) Dict.empty := by
    refine (Forall₂.foldl_rel (S := Eq) h (fun row row' d d' hrow hd => ?_) rfl).symm
    rw [hd, hrow.1, hscore _ _ hrow.2.2.2]
  have hparts : Gate.components model' = Gate.components model := by
    rw [Gate.components, Gate.components, hnames, hcoefficients]
  unfold decideRows
  rw [hscores, hparts]
  refine (Forall₂.mapM_eq h fun row row' hrow => ?_).symm
  rw [hrow.1, hrow.2.2.1]

/-! ### The baseline -/

omit [LinearOrder K] in
theorem observed_rescaled (h : List.Forall₂ (RowRescaled fl a b) rows rows') (name : String) :
    QuantBaseline.observed fl rows' name = (QuantBaseline.observed fl rows name).map fun _ x => a name * x + b name := by
  refine Forall₂.foldl_rel (S := fun d d' : Dict Int K => d' = d.map fun _ x => a name * x + b name) h
    (fun row row' d d' hrow hd => ?_) rfl
  rw [hrow.2.2.2 name, hrow.1]
  cases number fl (row.values.get? name) with
  | none => exact hd
  | some x => exact (Dict.map_set d _ _ x).symm ▸ congrArg (fun d : Dict Int K => d.set _ _) hd

/-- A factor's score is the standardized value, with the sign of the factor. -/
theorem zscore_eq (fl : PyFloat K) (rows : List (FeatureRow K)) (name : String) (sid : Int) : QuantBaseline.zscore fl rows name sid =
    (if name ∈ QuantBaseline.lowIsGood then -1 else 1) *
      (Scale.of fl.pstdev (QuantBaseline.observed fl rows name).values).apply ((QuantBaseline.observed fl rows name).get? sid) := by
  rw [QuantBaseline.zscore]
  by_cases hnil : (QuantBaseline.observed fl rows name).values = []
  · have hnone : (QuantBaseline.observed fl rows name).get? sid = none := by
      rw [Dict.get?, List.map_eq_nil_iff.mp hnil]
      rfl
    rw [if_pos hnil, hnone, Scale.apply_none, mul_zero]
  · simp only [if_neg hnil, Scale.apply, Scale.of, mul_div_assoc]
    rfl

variable [IsStrictOrderedRing K]

theorem zscore_rescaled (hdev : IsDeviation fl.pstdev) (ha : ∀ name, 0 < a name)
    (h : List.Forall₂ (RowRescaled fl a b) rows rows') (name : String) (sid : Int) :
    QuantBaseline.zscore fl rows' name sid = QuantBaseline.zscore fl rows name sid := by
  rw [zscore_eq, zscore_eq, observed_rescaled h, Dict.values_map, Dict.get?_map]
  rcases Scale.apply_affine hdev (ha name) (b name) (QuantBaseline.observed fl rows name).values with happly | ⟨hzero, hzero'⟩
  · rw [happly]
  · cases hx : (QuantBaseline.observed fl rows name).get? sid with
    | none => rw [Option.map_none, Scale.apply_none, Scale.apply_none]
    | some x =>
      have hmem : x ∈ (QuantBaseline.observed fl rows name).values := Dict.mem_values.mpr ⟨sid, hx⟩
      rw [Option.map_some, hzero x hmem, hzero' x hmem]

theorem decisions_rescaled {fns : GateFns K} (hdev : IsDeviation fns.float.pstdev) (ha : ∀ name, 0 < a name)
    (h : List.Forall₂ (RowRescaled fns.float a b) rows rows') (runId : UUID) (asOf : AwareDatetime)
    (entityTokens : Dict Int EntityToken) :
    QuantBaseline.decisions fns rows' runId asOf entityTokens = QuantBaseline.decisions fns rows runId asOf entityTokens := by
  have hcomposite : ∀ sid, QuantBaseline.composite fns.float rows' sid = QuantBaseline.composite fns.float rows sid := by
    intro sid
    simp only [QuantBaseline.composite, zscore_rescaled hdev ha h]
  refine (Forall₂.mapM_eq h fun row row' hrow => ?_).symm
  unfold QuantBaseline.decisionOf
  rw [hrow.1, hcomposite]

/-! ### The date -/

/-- The decisions and the book of a date do not depend on the units of the features: a positive affine change of every
    feature, in the rows of the date and in the rows the gate is trained on, leaves both as they are, errors included. -/
theorem runDate_rescaled {gateFns : GateFns K} {mathFns : Sizing.MathFns K} {deterministicRunId : AwareDatetime → String → UUID}
    (hdev : IsDeviation gateFns.float.pstdev) (ha : ∀ name, 0 < a name) (inputs : Walkforward.WalkForwardInputs K)
    {training' : List (FeatureRow K)} (hrows : List.Forall₂ (RowRescaled gateFns.float a b) inputs.rows rows')
    (htraining : List.Forall₂ (RowRescaled gateFns.float a b) inputs.trainingFeatures training') (asOf : AwareDatetime)
    (riskConfig : RiskConfig K) (gateK : Nat) (configHash : String) :
    (Walkforward.runDate gateFns mathFns deterministicRunId asOf { inputs with rows := rows', trainingFeatures := training' }
      riskConfig gateK configHash).map (fun r => (r.gateDecisions, r.book)) =
    (Walkforward.runDate gateFns mathFns deterministicRunId asOf inputs riskConfig gateK configHash).map
      fun r => (r.gateDecisions, r.book) := by
  obtain ⟨hnames, hcoefficients, -, hscore⟩ := Gate.fitLogistic_invariant hdev ha (List.Perm.refl _)
    (eligible_rescaled htraining inputs.labels asOf) 300 0.08 0.01
  have hgate := decideRows_rescaled hrows hnames hcoefficients hscore (deterministicRunId asOf configHash) asOf gateK
  have hlater : ∀ gate : List (GateDecision K),
      QuantBaseline.decisions gateFns
        (rows'.filter fun row => decide (row.securityId ∈ (gate.filter (·.passed)).map (·.securityId)))
        (deterministicRunId asOf configHash) asOf inputs.entityTokens =
      QuantBaseline.decisions gateFns
        (inputs.rows.filter fun row => decide (row.securityId ∈ (gate.filter (·.passed)).map (·.securityId)))
        (deterministicRunId asOf configHash) asOf inputs.entityTokens := by
    intro gate
    refine decisions_rescaled hdev ha (List.rel_filter (fun row row' hrow => ?_) hrows) _ asOf inputs.entityTokens
    dsimp only
    rw [hrow.1]
  unfold Walkforward.runDate
  dsimp only
  rw [hgate]
  simp only [hlater]
  cases Walkforward.checked (decideRows gateFns (fitLogistic gateFns (eligibleTrainingSet inputs.trainingFeatures inputs.labels asOf)
      300 0.08 0.01) inputs.rows (deterministicRunId asOf configHash) asOf gateK) with
  | error e => rfl
  | ok gate =>
    change Except.map _ (Except.bind (QuantBaseline.decisions _ _ _ _ _) _) = Except.map _ (Except.bind (QuantBaseline.decisions _ _ _ _ _) _)
    cases QuantBaseline.decisions gateFns
        (inputs.rows.filter fun row => decide (row.securityId ∈ (gate.filter (·.passed)).map (·.securityId)))
        (deterministicRunId asOf configHash) asOf inputs.entityTokens with
    | error e => rfl
    | ok decisions =>
      change Except.map _ (if decisions.isEmpty = true then _ else _) = Except.map _ (if decisions.isEmpty = true then _ else _)
      split
      · cases Walkforward.checked (ProposedBook.make (K := K) (deterministicRunId asOf configHash) asOf []) with
        | error e => rfl
        | ok book => rfl
      · cases Sizing.sizeBook mathFns decisions inputs.sectors inputs.volatilities riskConfig with
        | error e => rfl
        | ok book => rfl

end Units

/-! ### The book -/

section Book
open Sizing (realFns BookLimits Decided sizeBook)
variable {gateFns : GateFns ℝ} {deterministicRunId : AwareDatetime → String → UUID} {asOf : AwareDatetime}
  {inputs : Walkforward.WalkForwardInputs ℝ} {riskConfig : RiskConfig ℝ} {gateK : Nat} {configHash : String}

/-- The steps of a date that returns. -/
theorem runDate_eq_ok {r : Walkforward.WalkForwardResult ℝ} :
    Walkforward.runDate gateFns realFns deterministicRunId asOf inputs riskConfig gateK configHash = .ok r ↔
      ∃ gate, decideRows gateFns (fitLogistic gateFns (eligibleTrainingSet inputs.trainingFeatures inputs.labels asOf) 300 0.08 0.01)
          inputs.rows (deterministicRunId asOf configHash) asOf gateK = .ok gate ∧
        ∃ decisions, QuantBaseline.decisions gateFns
            (inputs.rows.filter fun row => decide (row.securityId ∈ (gate.filter (·.passed)).map (·.securityId)))
            (deterministicRunId asOf configHash) asOf inputs.entityTokens = .ok decisions ∧
          ∃ book, (decisions = [] ∧ ProposedBook.make (deterministicRunId asOf configHash) asOf [] = .ok book ∨
              decisions ≠ [] ∧ sizeBook realFns decisions inputs.sectors inputs.volatilities riskConfig = .ok book) ∧
            r = ⟨book, gate, inputs.rows, configHash⟩ := by
  have hchecked : ∀ {α : Type} {x : Except ValidationError α} {y : α}, Walkforward.checked x = .ok y ↔ x = .ok y := by
    intro α x y
    cases x with
    | error e => exact ⟨nofun, nofun⟩
    | ok z => exact ⟨fun h => congrArg _ (Except.ok.inj h), fun h => congrArg _ (Except.ok.inj h)⟩
  constructor
  · intro h
    obtain ⟨gate, hgate, h⟩ := Except.bind_eq_ok.mp h
    obtain ⟨decisions, hdecisions, h⟩ := Except.bind_eq_ok.mp h
    refine ⟨gate, hchecked.mp hgate, decisions, hdecisions, ?_⟩
    cases decisions with
    | nil =>
      obtain ⟨book, hbook, h⟩ := Except.bind_eq_ok.mp h
      cases h
      exact ⟨book, .inl ⟨rfl, hchecked.mp hbook⟩, rfl⟩
    | cons d ds =>
      obtain ⟨book, hbook, h⟩ := Except.bind_eq_ok.mp h
      cases h
      exact ⟨book, .inr ⟨List.cons_ne_nil d ds, hbook⟩, rfl⟩
  · intro h
    obtain ⟨gate, hgate, decisions, hdecisions, book, hbook, rfl⟩ := h
    refine Except.bind_eq_ok.mpr ⟨gate, hchecked.mpr hgate, Except.bind_eq_ok.mpr ⟨decisions, hdecisions, ?_⟩⟩
    cases decisions with
    | nil => exact Except.bind_eq_ok.mpr ⟨book, hchecked.mpr (hbook.resolve_right fun h => h.1 rfl).2, rfl⟩
    | cons d ds => exact Except.bind_eq_ok.mpr ⟨book, (hbook.resolve_left fun h => List.cons_ne_nil d ds h.1).2, rfl⟩

/-- What the gate of a date returns, whatever the model. -/
theorem decideRows_spec {model : Gate.LogisticGate ℝ} {rows : List (FeatureRow ℝ)} {runId : UUID} {ds : List (GateDecision ℝ)}
    (h : decideRows gateFns model rows runId asOf gateK = .ok ds) : List.Forall₂ (fun row d => d.securityId = row.securityId ∧
      (d.passed = true ↔ row.securityId.val ∈ topKeys (Gate.scoresOf gateFns model rows) gateK)) rows ds := by
  refine (Except.mapM_eq_ok.mp h).imp fun row d hd => ?_
  dsimp only at hd
  split at hd
  · obtain ⟨parts, -, hd⟩ := Except.bind_eq_ok.mp hd
    cases hd
    exact ⟨rfl, decide_eq_true_iff⟩
  · cases hd

theorem decisions_spec {rows : List (FeatureRow ℝ)} {runId : UUID} {entityTokens : Dict Int EntityToken}
    {ds : List (CommitteeDecision ℝ)} (h : QuantBaseline.decisions gateFns rows runId asOf entityTokens = .ok ds) :
    List.Forall₂ (fun row d => d.securityId = row.securityId ∧ entityTokens.get? row.securityId.val = some d.entityToken) rows ds := by
  refine (Except.mapM_eq_ok.mp h).imp fun row d hd => ?_
  obtain ⟨token, htoken, hd⟩ := Except.bind_eq_ok.mp hd
  split at hd
  · cases hd
    exact ⟨rfl, Sizing.item_eq_ok.mp htoken⟩
  · cases hd

/-- A position of the baseline's book is of a decided name. -/
theorem decided_of_position {decisions : List (CommitteeDecision ℝ)} {sectors : Dict Int String} {volatilities : Dict Int ℝ}
    {book : ProposedBook ℝ} (h : sizeBook realFns decisions sectors volatilities riskConfig = .ok book) :
    ∀ p ∈ book.positions, ∃ d ∈ decisions, d.securityId = p.securityId := by
  obtain ⟨first, -, capped, -, vol, -, positions, hpositions, hbook⟩ := Sizing.sizeBook_eq_ok.mp h
  intro p hp
  rw [Sizing.make_book_positions hbook] at hp
  obtain ⟨e, -, he⟩ := Forall₂.exists_of_mem_right (Except.mapM_eq_ok.mp hpositions) hp
  obtain ⟨⟨hid, -⟩, d, hd, hsid, -⟩ := Sizing.baselinePosition_spec he
  exact ⟨d, hd, Subtype.ext (hsid.trans hid.symm)⟩

theorem bookLimits_nil (volatilities : Dict Int ℝ) (config : RiskConfig ℝ) : BookLimits volatilities config [] where
  positive := nofun
  atLeastMin := nofun
  atMostMax := nofun
  sector _ := config.maxSector.property.1
  volatility := by
    rw [List.map_nil, List.sum_nil, Real.sqrt_zero]
    exact config.volTargetAnnual.property.le
  gross := by
    rw [List.map_nil, List.sum_nil]
    exact zero_le_one

/-- A date that returns logs a decision for every row, holds only names that passed the gate, at most `gate_k` of them, and
    keeps every limit of the book. -/
theorem runDate_gated {r : Walkforward.WalkForwardResult ℝ}
    (h : Walkforward.runDate gateFns realFns deterministicRunId asOf inputs riskConfig gateK configHash = .ok r) :
    r.gateDecisions.map (·.securityId) = inputs.rows.map (·.securityId) ∧
      (∀ p ∈ r.book.positions, ∃ d ∈ r.gateDecisions, d.securityId = p.securityId ∧ d.passed = true) ∧
      r.book.positions.length ≤ gateK ∧ BookLimits inputs.volatilities riskConfig r.book.positions := by
  obtain ⟨gate, hgate, decisions, hdecisions, book, hbook, rfl⟩ := runDate_eq_ok.mp h
  have hrows := decideRows_spec hgate
  have hheld : ∀ p ∈ book.positions, ∃ d ∈ gate, d.securityId = p.securityId ∧ d.passed = true := by
    intro p hp
    rcases hbook with ⟨-, hbook⟩ | ⟨-, hbook⟩
    · rw [Sizing.make_book_positions hbook] at hp
      cases hp
    · obtain ⟨decision, hdecision, hsid⟩ := decided_of_position hbook p hp
      obtain ⟨row, hrow, hid, -⟩ := Forall₂.exists_of_mem_right (decisions_spec hdecisions) hdecision
      obtain ⟨d, hd, hdid⟩ := List.mem_map.mp (of_decide_eq_true (List.mem_filter.mp hrow).2)
      obtain ⟨hd, hpassed⟩ := List.mem_filter.mp hd
      exact ⟨d, hd, hdid.trans (hid.symm.trans hsid), hpassed⟩
  refine ⟨?_, hheld, ?_, ?_⟩
  · exact (Forall₂.map_eq hrows fun row d hd => hd.1.symm).symm
  · have hsubset : book.positions.map (fun p => p.securityId.val) ⊆ topKeys (Gate.scoresOf gateFns (fitLogistic gateFns
        (eligibleTrainingSet inputs.trainingFeatures inputs.labels asOf) 300 0.08 0.01) inputs.rows) gateK := by
      intro sid hsid
      obtain ⟨p, hp, rfl⟩ := List.mem_map.mp hsid
      obtain ⟨d, hd, hid, hpassed⟩ := hheld p hp
      obtain ⟨row, -, hdid, htop⟩ := Forall₂.exists_of_mem_right hrows hd
      rw [← hid, hdid]
      exact htop.mp hpassed
    have hnodup : (book.positions.map fun p => p.securityId.val).Nodup := by
      have hunique := book.ids_unique.map Subtype.val_injective
      rwa [List.map_map] at hunique
    have hle := (hnodup.subperm hsubset).length_le
    rw [List.length_map, length_topKeys] at hle
    exact hle.trans (Nat.min_le_left _ _)
  · rcases hbook with ⟨-, hbook⟩ | ⟨-, hbook⟩
    · rw [Sizing.make_book_positions hbook]
      exact bookLimits_nil _ _
    · exact (Sizing.sizeBook_within hbook).1

/-- Where every row has a token of its own, a labelled sector and a volatility, a date returns. -/
theorem runDate_total (hexp : ∀ x, 0 < gateFns.exp x)
    (hnames : ∀ name ∈ (fitLogistic gateFns (eligibleTrainingSet inputs.trainingFeatures inputs.labels asOf) 300 0.08 0.01).names,
      1 ≤ name.length ∧ name.length ≤ 128)
    (htokens : ∀ row ∈ inputs.rows, (inputs.entityTokens.get? row.securityId.val).isSome)
    (hunique : ∀ i j token, inputs.entityTokens.get? i = some token → inputs.entityTokens.get? j = some token → i = j)
    (hsectors : ∀ row ∈ inputs.rows, ∃ s, inputs.sectors.get? row.securityId.val = some s ∧ 1 ≤ s.length ∧ s.length ≤ 128)
    (hvolatilities : ∀ row ∈ inputs.rows, (inputs.volatilities.get? row.securityId.val).isSome) :
    ∃ r, Walkforward.runDate gateFns realFns deterministicRunId asOf inputs riskConfig gateK configHash = .ok r := by
  obtain ⟨parts, hparts⟩ := Gate.components_eq hnames
  have hgate := Gate.decideRows_eq hexp hparts inputs.rows (deterministicRunId asOf configHash) asOf gateK
  generalize (inputs.rows.map (Gate.decisionOn hexp (fitLogistic gateFns (eligibleTrainingSet inputs.trainingFeatures inputs.labels asOf)
    300 0.08 0.01) inputs.rows (deterministicRunId asOf configHash) asOf gateK parts)) = gate at hgate
  obtain ⟨decisions, hdecisions⟩ : ∃ decisions, QuantBaseline.decisions gateFns
      (inputs.rows.filter fun row => decide (row.securityId ∈ (gate.filter (·.passed)).map (·.securityId)))
      (deterministicRunId asOf configHash) asOf inputs.entityTokens = .ok decisions := by
    refine Except.mapM_ok_of_forall fun row hrow => ?_
    obtain ⟨token, htoken⟩ := Option.isSome_iff_exists.mp (htokens row (List.mem_of_mem_filter hrow))
    refine ⟨_, Except.bind_eq_ok.mpr ⟨token, Sizing.item_eq_ok.mpr htoken, dif_pos ?_⟩⟩
    have hpos := hexp (-(max (-20) (min 20 (QuantBaseline.composite gateFns.float
      (inputs.rows.filter fun row => decide (row.securityId ∈ (gate.filter (·.passed)).map (·.securityId))) row.securityId.val))))
    exact ⟨div_nonneg zero_le_one (add_pos one_pos hpos).le, (div_le_one (add_pos one_pos hpos)).mpr (le_add_of_nonneg_right hpos.le)⟩
  by_cases hnil : decisions = []
  · subst hnil
    have hids : (([] : List (ProposedPosition ℝ)).map (·.securityId)).Nodup := List.nodup_nil
    obtain ⟨book, hbook⟩ := Sizing.make_book_ok (deterministicRunId asOf configHash) asOf hids List.nodup_nil
      (by norm_num [grossExposure])
    exact ⟨_, runDate_eq_ok.mpr ⟨gate, hgate, [], hdecisions, book, .inl ⟨rfl, hbook⟩, rfl⟩⟩
  · have hrow : ∀ d ∈ decisions, ∃ row ∈ inputs.rows, d.securityId = row.securityId ∧
        inputs.entityTokens.get? row.securityId.val = some d.entityToken := by
      intro d hd
      obtain ⟨row, hrow, hid, htoken⟩ := Forall₂.exists_of_mem_right (decisions_spec hdecisions) hd
      exact ⟨row, List.mem_of_mem_filter hrow, hid, htoken⟩
    have hdecided : Decided decisions inputs.sectors := by
      refine ⟨fun d hd => ?_, fun d hd d' hd' htoken => ?_⟩
      · obtain ⟨row, hrow, hid, -⟩ := hrow d hd
        rw [hid]
        exact hsectors row hrow
      · obtain ⟨row, -, hid, hget⟩ := hrow d hd
        obtain ⟨row', -, hid', hget'⟩ := hrow d' hd'
        rw [hid, hid']
        rw [htoken] at hget
        exact Subtype.ext (hunique _ _ _ hget hget')
    have hknown : ∀ d ∈ decisions, (inputs.volatilities.get? d.securityId.val).isSome := by
      intro d hd
      obtain ⟨row, hrow, hid, -⟩ := hrow d hd
      rw [hid]
      exact hvolatilities row hrow
    have hsized : ∃ book, Sizing.sizeBook Sizing.realFns decisions inputs.sectors inputs.volatilities riskConfig = .ok book :=
      Sizing.sizeBook_ok hnil hdecided hknown
    obtain ⟨book, hbook⟩ := hsized
    exact ⟨_, runDate_eq_ok.mpr ⟨gate, hgate, decisions, hdecisions, book, .inr ⟨hnil, hbook⟩, rfl⟩⟩

end Book

section Samples
open Gate (realFns oneRow oneValue)

/-- One row, and no history to train on. -/
noncomputable def oneDate (x : ℝ) : Walkforward.WalkForwardInputs ℝ :=
  { rows := [oneRow Walkforward.firstId x]
    trainingFeatures := []
    labels := []
    sectors := Sizing.oneSector
    volatilities := Sizing.oneVolatility
    entityTokens := ⟨[(1, ⟨"TICKER_11", Samples.token_eleven⟩)], List.nodup_singleton _⟩ }

theorem runDate_gated_one : ∃ r, Walkforward.runDate realFns Sizing.realFns (fun _ _ => ⟨0⟩) ⟨0, 0⟩ (oneDate 1) Sizing.riskYaml 1 "fixture" = .ok r ∧
    r.gateDecisions.map (·.securityId) = [Walkforward.firstId] ∧ r.book.positions.length ≤ 1 := by
  have hexp : ∀ x, 0 < realFns.exp x := Real.exp_pos
  have hrow : ∀ row ∈ (oneDate 1).rows, row = oneRow Walkforward.firstId 1 := fun row hrow => List.mem_singleton.mp hrow
  have hnil : eligibleTrainingSet (oneDate 1).trainingFeatures (oneDate 1).labels ⟨0, 0⟩ = [] := rfl
  obtain ⟨r, hr⟩ : ∃ r, Walkforward.runDate realFns Sizing.realFns (fun _ _ => ⟨0⟩) ⟨0, 0⟩ (oneDate 1) Sizing.riskYaml 1 "fixture" = .ok r := by
    refine runDate_total hexp ?_ (fun row h => ?_) ?_ (fun row h => ?_) (fun row h => ?_)
    · rw [hnil, Gate.fitLogistic_nil]
      exact nofun
    · rw [hrow row h]
      rfl
    · intro i j token hi hj
      have hkey : ∀ k, (oneDate 1).entityTokens.get? k = some token → k = 1 := by
        intro k hk
        exact congrArg Prod.fst (List.mem_singleton.mp (Dict.get?_eq_some.mp hk))
      rw [hkey i hi, hkey j hj]
    · rw [hrow row h]
      exact ⟨"Energy", rfl, by decide⟩
    · rw [hrow row h]
      rfl
  obtain ⟨hids, -, hlength, -⟩ := runDate_gated hr
  exact ⟨r, hr, hids, hlength⟩

local instance doubled_atLeastTwo : Nat.AtLeastTwo 2 := inferInstance

/-- The same date in other units. -/
noncomputable def otherDate : Walkforward.WalkForwardInputs ℝ :=
  { oneDate 1 with rows := [oneRow Walkforward.firstId (2 * 1 + 1)], trainingFeatures := [] }

theorem runDate_rescaled_one :
    (Walkforward.runDate realFns Sizing.realFns (fun _ _ => ⟨0⟩) ⟨0, 0⟩ otherDate Sizing.riskYaml 1 "fixture").map
        (fun r => (r.gateDecisions, r.book)) =
    (Walkforward.runDate realFns Sizing.realFns (fun _ _ => ⟨0⟩) ⟨0, 0⟩ (oneDate 1) Sizing.riskYaml 1 "fixture").map
      fun r => (r.gateDecisions, r.book) := by
  have hrows : List.Forall₂ (RowRescaled realFns.float (fun _ => 2) (fun _ => 1)) (oneDate 1).rows
      [oneRow Walkforward.firstId (2 * 1 + 1)] := .cons ⟨rfl, rfl, rfl, Gate.rescaled_oneValue 1⟩ .nil
  have htraining : List.Forall₂ (RowRescaled realFns.float (fun _ => 2) (fun _ => 1)) (oneDate 1).trainingFeatures [] := .nil
  have hpos : ∀ _ : String, (0 : ℝ) < 2 := fun _ => two_pos
  exact runDate_rescaled Descent.isDeviation_sqrt hpos (oneDate 1) hrows htraining ⟨0, 0⟩ Sizing.riskYaml 1 "fixture"

end Samples

end AsymmetricCommittee
