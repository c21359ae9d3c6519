import AsymmetricCommittee.Theorems.SizingLimits
import AsymmetricCommittee.Contracts.Samples

/-! The book of the quant baseline. It sizes each decision on its own and then shares the sector caps, the limits
    and the floor with the committee, so the same monotonicity keeps every limit. The volatility estimate reads
    the volatility of every decided name, of those too whose missing volatility had set their weight to zero. -/

namespace AsymmetricCommittee
namespace Sizing

section Baseline
variable {decisions : List (CommitteeDecision ℝ)} {sectors : Dict Int String} {volatilities : Dict Int ℝ}
  {config : RiskConfig ℝ}

/-! ### The weights of the decisions -/

theorem mem_byName {ν : Type} {value : CommitteeDecision ℝ → ν} {sid : Int} {v : ν}
    (h : (byName value decisions).get? sid = some v) : ∃ d ∈ decisions, d.securityId.val = sid ∧ value d = v := by
  rcases Dict.of_get?_foldl_set h with hmem | hempty
  · exact hmem
  · cases hempty

theorem byName_isSome {ν : Type} (value : CommitteeDecision ℝ → ν) {d : CommitteeDecision ℝ} (hd : d ∈ decisions) :
    ((byName value decisions).get? d.securityId.val).isSome :=
  Dict.isSome_get?_foldl_set (.inl ⟨d, hd, rfl⟩)

/-- The names with a weight are the decided ones, those of weight zero among them. -/
theorem keys_byName {ν : Type} (value : CommitteeDecision ℝ → ν) {sid : Int} :
    sid ∈ (byName value decisions).keys ↔ ∃ d ∈ decisions, d.securityId.val = sid := by
  constructor
  · intro h
    obtain ⟨e, he, rfl⟩ := List.mem_map.mp h
    obtain ⟨d, hd, hsid, -⟩ := mem_byName (Dict.get?_eq_some.mpr he)
    exact ⟨d, hd, hsid⟩
  · rintro ⟨d, hd, rfl⟩
    by_contra hnone
    have hsome := byName_isSome value hd
    rw [Dict.get?_eq_none.mpr hnone] at hsome
    cases hsome

theorem decisionWeight_range (volatilities : Dict Int ℝ) (config : RiskConfig ℝ) (d : CommitteeDecision ℝ) :
    0 ≤ decisionWeight volatilities config d ∧ decisionWeight volatilities config d ≤ config.maxPosition.val := by
  have hmax : 0 ≤ config.maxPosition.val := config.maxPosition.property.1
  unfold decisionWeight
  extract_lets sigma edge bear weight shrunk capped
  split
  · exact ⟨le_rfl, hmax⟩
  · rename_i hheld
    obtain ⟨-, hsigma, hedge⟩ : ¬ _ ∧ ¬ _ ∧ ¬ _ := by simpa only [not_or] using hheld
    rw [not_le] at hsigma hedge
    have hweight : 0 ≤ weight := div_nonneg (mul_nonneg config.k.property.le hedge.le) hsigma.le
    have hshrunk : 0 ≤ shrunk :=
      mul_nonneg hweight (mul_nonneg (le_max_left _ _) (config.bearMultiplier (d.bearSeverity.getD .low)).property.1)
    split
    · exact ⟨le_rfl, hmax⟩
    · exact ⟨le_min hshrunk hmax, min_le_right _ _⟩

theorem byName_range (volatilities : Dict Int ℝ) (config : RiskConfig ℝ) (decisions : List (CommitteeDecision ℝ)) :
    ∀ e ∈ (byName (decisionWeight volatilities config) decisions).entries, 0 ≤ e.2 ∧ e.2 ≤ config.maxPosition.val := by
  intro e he
  obtain ⟨d, -, -, hd⟩ := mem_byName (Dict.get?_eq_some.mpr he)
  rw [← hd]
  exact decisionWeight_range volatilities config d

/-! ### The volatility of every decided name is read -/

/-- An estimate that returns has read the volatility of every weighted name. -/
theorem known_of_portfolioVol {fns : MathFns ℝ} {weights : Dict Int ℝ} {vol : ℝ}
    (h : portfolioVol fns weights volatilities = .ok vol) : ∀ sid ∈ weights.keys, (volatilities.get? sid).isSome := by
  obtain ⟨squares, hsquares, -⟩ := Except.bind_eq_ok.mp h
  intro sid hsid
  obtain ⟨e, he, rfl⟩ := List.mem_map.mp hsid
  obtain ⟨square, -, hsquare⟩ := Forall₂.exists_of_mem_left (Except.mapM_eq_ok.mp hsquares) he
  obtain ⟨v, hv, -⟩ := Except.bind_eq_ok.mp hsquare
  rw [item_eq_ok.mp hv]
  rfl

/-- The capped weights are of the decided names. -/
theorem capped_spec {capped : Dict Int ℝ}
    (h : capSectors (byName (decisionWeight volatilities config) decisions) sectors config.maxSector.val = .ok capped) :
    (∀ e ∈ capped.entries, 0 ≤ e.2 ∧ e.2 ≤ config.maxPosition.val) ∧
      (∀ s, sectorTotal sectors s capped.entries ≤ config.maxSector.val) ∧
      ∀ sid, sid ∈ capped.keys ↔ ∃ d ∈ decisions, d.securityId.val = sid := by
  have hrange := byName_range volatilities config decisions
  obtain ⟨hshrinks, htotal⟩ := capSectors_spec config.maxSector.property.1 (fun e he => (hrange e he).1) h
  refine ⟨fun e he => ?_, htotal, fun sid => ?_⟩
  · obtain ⟨h0, x, hx, -, hle⟩ := hshrinks.mem he
    exact ⟨h0, hle.trans (hrange x hx).2⟩
  · have hkeys : capped.keys = (byName (decisionWeight volatilities config) decisions).keys := hshrinks.keys_eq
    rw [hkeys]
    exact keys_byName _

/-! ### The book -/

/-- What a held name's position is built from. -/
theorem baselinePosition_spec {e : Int × ℝ} {p : ProposedPosition ℝ}
    (h : baselinePosition (byName id decisions) sectors e.1 e.2 = .ok p) :
    HoldsEntry sectors e p ∧ ∃ d ∈ decisions, d.securityId.val = e.1 ∧ d.entityToken = p.entityToken := by
  obtain ⟨d, hd, h⟩ := Except.bind_eq_ok.mp h
  obtain ⟨sector, hsector, h⟩ := Except.bind_eq_ok.mp h
  obtain ⟨d', hmem, hsid, heq⟩ := mem_byName (item_eq_ok.mp hd)
  obtain rfl : d' = d := heq
  split at h
  · rename_i position hmake
    cases h
    obtain ⟨hid, htoken, hlabel, hweight⟩ := make_position_spec hmake
    refine ⟨⟨hid, hweight, ?_⟩, d', hmem, hsid, htoken.symm⟩
    rw [hlabel]
    exact item_eq_ok.mp hsector
  · cases h

/-- The weights after the scale and the last floor. -/
noncomputable def scaledWeights (config : RiskConfig ℝ) (vol : ℝ) (weights : Dict Int ℝ) : Dict Int ℝ :=
  weights.map fun _ w =>
    floorWeight config.minPosition.val (w * limitScale vol (weights.entries.map (·.2)).sum config.volTargetAnnual.val)

/-- The steps of a sizing that returns a book. -/
theorem sizeBook_eq_ok {book : ProposedBook ℝ} :
    sizeBook realFns decisions sectors volatilities config = .ok book ↔
      ∃ first, decisions.head? = some first ∧
        ∃ capped, capSectors (byName (decisionWeight volatilities config) decisions) sectors config.maxSector.val = .ok capped ∧
        ∃ vol, portfolioVol realFns capped volatilities = .ok vol ∧
        ∃ positions, (heldEntries (scaledWeights config vol capped)).mapM (fun e =>
            baselinePosition (byName id decisions) sectors e.1 e.2) = .ok positions ∧
          ProposedBook.make first.runId first.asOf positions = .ok book := by
  cases decisions with
  | nil => exact ⟨nofun, fun ⟨first, hfirst, _⟩ => nomatch hfirst⟩
  | cons first rest =>
    constructor
    · intro h
      obtain ⟨capped, hcapped, h⟩ := Except.bind_eq_ok.mp h
      obtain ⟨vol, hvol, h⟩ := Except.bind_eq_ok.mp h
      obtain ⟨positions, hpositions, h⟩ := Except.bind_eq_ok.mp h
      refine ⟨first, rfl, capped, hcapped, vol, hvol, positions, hpositions, ?_⟩
      split at h
      · rename_i made hmade
        rw [hmade]
        exact congrArg _ (Except.ok.inj h)
      · cases h
    · rintro ⟨_, hfirst, capped, hcapped, vol, hvol, positions, hpositions, h⟩
      cases hfirst
      refine Except.bind_eq_ok.mpr ⟨capped, hcapped, Except.bind_eq_ok.mpr ⟨vol, hvol, ?_⟩⟩
      refine Except.bind_eq_ok.mpr ⟨positions, hpositions, ?_⟩
      rw [h]
      rfl

/-- A book the baseline returns is within the limits, and every decided name had a volatility. -/
theorem sizeBook_within {book : ProposedBook ℝ} (h : sizeBook realFns decisions sectors volatilities config = .ok book) :
    BookLimits volatilities config book.positions ∧ ∀ d ∈ decisions, (volatilities.get? d.securityId.val).isSome := by
  obtain ⟨first, -, capped, hcapped, vol, hvol, positions, hpositions, hbook⟩ := sizeBook_eq_ok.mp h
  obtain ⟨hrange, htotal, hkeys⟩ := capped_spec hcapped
  have hknown := known_of_portfolioVol hvol
  have hsqrt := portfolioVol_known realFns fun e he => hknown e.1 (List.mem_map_of_mem he)
  have hvoleq : vol = Real.sqrt (variance volatilities capped.entries) := Except.ok.inj (hvol.symm.trans hsqrt)
  rw [hvoleq] at hpositions
  obtain ⟨hwithin, -⟩ := scaled_within sectors volatilities config hrange htotal
  have hpos := (Except.mapM_eq_ok.mp hpositions).imp fun _ _ hp => (baselinePosition_spec hp).1
  refine ⟨?_, fun d hd => hknown _ ((hkeys _).mpr ⟨d, hd, rfl⟩)⟩
  rw [make_book_positions hbook]
  exact bookLimits_of_weights hwithin hpos

/-- What the contracts of a book ask of the names decided: the sector of each is a known label, and a token is of
    one name. -/
structure Decided (decisions : List (CommitteeDecision ℝ)) (sectors : Dict Int String) : Prop where
  sectors : ∀ d ∈ decisions, ∃ s, sectors.get? d.securityId.val = some s ∧ 1 ≤ s.length ∧ s.length ≤ 128
  tokens : ∀ d ∈ decisions, ∀ d' ∈ decisions, d.entityToken = d'.entityToken → d.securityId = d'.securityId

/-- With a volatility for every decided name, the baseline returns a book. -/
theorem sizeBook_ok (hne : decisions ≠ []) (hdecided : Decided decisions sectors)
    (hknown : ∀ d ∈ decisions, (volatilities.get? d.securityId.val).isSome) :
    ∃ book, sizeBook realFns decisions sectors volatilities config = .ok book := by
  obtain ⟨first, hfirst⟩ : ∃ first, decisions.head? = some first := ⟨decisions.head hne, List.head?_eq_some_head hne⟩
  have hsectors : ∀ e ∈ (byName (decisionWeight volatilities config) decisions).entries, (sectors.get? e.1).isSome :=
    fun e he => by
      obtain ⟨d, hd, hsid⟩ := (keys_byName _).mp (List.mem_map_of_mem he)
      obtain ⟨s, hs, -⟩ := hdecided.sectors d hd
      rw [← hsid, hs]
      rfl
  obtain ⟨capped, hcapped⟩ := capSectors_ok config.maxSector.val hsectors
  obtain ⟨hrange, htotal, hkeys⟩ := capped_spec hcapped
  have hread : ∀ e ∈ capped.entries, (volatilities.get? e.1).isSome := fun e he => by
    obtain ⟨d, hd, hsid⟩ := (hkeys e.1).mp (List.mem_map_of_mem he)
    rw [← hsid]
    exact hknown d hd
  have hvol := portfolioVol_known realFns hread
  obtain ⟨hwithin, hsame⟩ := scaled_within sectors volatilities config hrange htotal
  set final := scaledWeights config (Real.sqrt (variance volatilities capped.entries)) capped
  have hposition : ∀ e ∈ heldEntries final, ∃ p, baselinePosition (byName id decisions) sectors e.1 e.2 = .ok p :=
    fun e he => by
      obtain ⟨hmem, -⟩ := mem_heldEntries.mp he
      obtain ⟨d, hd, hsid⟩ := (hkeys e.1).mp (hsame ▸ List.mem_map_of_mem hmem)
      obtain ⟨held, hheld⟩ := Option.isSome_iff_exists.mp (byName_isSome id hd)
      rw [hsid] at hheld
      obtain ⟨s, hs, hlabel⟩ := hdecided.sectors d hd
      rw [hsid] at hs
      obtain ⟨p, hp⟩ := make_position_ok held.entityToken (hsid ▸ d.securityId.property) hlabel held.pooledP.property
        ⟨(hwithin.range e hmem).1, (hwithin.range e hmem).2.trans config.maxPosition_le⟩
      refine ⟨p, Except.bind_eq_ok.mpr ⟨held, item_eq_ok.mpr hheld, ?_⟩⟩
      refine Except.bind_eq_ok.mpr ⟨s, item_eq_ok.mpr hs, ?_⟩
      rw [hp]
      rfl
  obtain ⟨positions, hpositions⟩ := Except.mapM_ok_of_forall hposition
  have hpos := (Except.mapM_eq_ok.mp hpositions).imp fun _ _ hp => baselinePosition_spec hp
  obtain ⟨hids, htokens⟩ := held_unique (fun sid token => ∃ d ∈ decisions, d.securityId.val = sid ∧ d.entityToken = token)
    (fun sid sid' token ⟨d, hd, hsid, htoken⟩ ⟨d', hd', hsid', htoken'⟩ => by
      have hsame := hdecided.tokens d hd d' hd' (htoken.trans htoken'.symm)
      rw [← hsid, ← hsid', hsame]) hpos
  have hgross : grossExposure positions ≤ 1 := (bookLimits_of_weights hwithin (hpos.imp fun _ _ hp => hp.1)).gross
  obtain ⟨book, hbook⟩ := make_book_ok first.runId first.asOf hids htokens hgross
  exact ⟨book, sizeBook_eq_ok.mpr ⟨first, hfirst, capped, hcapped, _, hvol, positions, hpositions, hbook⟩⟩

/-- The baseline returns a book within every limit exactly where every decided name has a volatility. -/
theorem sizeBook_total_iff (decisions : List (CommitteeDecision ℝ)) (sectors : Dict Int String)
    (volatilities : Dict Int ℝ) (config : RiskConfig ℝ) (hne : decisions ≠ []) (hdecided : Decided decisions sectors) :
    (∃ book, sizeBook realFns decisions sectors volatilities config = .ok book ∧
        BookLimits volatilities config book.positions) ↔
      ∀ d ∈ decisions, (volatilities.get? d.securityId.val).isSome := by
  constructor
  · rintro ⟨book, hbook, -⟩
    exact (sizeBook_within hbook).2
  · intro hknown
    obtain ⟨book, hbook⟩ := sizeBook_ok hne hdecided hknown
    exact ⟨book, hbook, (sizeBook_within hbook).1⟩

/-! ### A name without a volatility -/

noncomputable def oneDecision : CommitteeDecision ℝ where
  runId := ⟨0⟩
  securityId := ⟨1, Samples.one_securityId⟩
  entityToken := ⟨"TICKER_11", Samples.token_eleven⟩
  asOf := ⟨0, 0⟩
  horizonDays := .d21
  pooledP := ⟨0.9, by norm_num⟩
  dispersion := ⟨0, nonNegative_zero ℝ⟩
  agentWeights := [⟨.quantBaseline, ⟨1, Samples.nonNegative_one ℝ⟩⟩]
  bearSeverity := none
  targetWeight := ⟨0, le_rfl, by norm_num [maxPositionCap]⟩
  weights_nonempty := by simp
  weights_unique := by simp
  weights_voting := .inl rfl

theorem one_decided : Decided [oneDecision] oneSector where
  sectors d hd := by
    rw [List.mem_singleton.mp hd]
    exact ⟨"Energy", rfl, by decide⟩
  tokens d hd d' hd' _ := by rw [List.mem_singleton.mp hd, List.mem_singleton.mp hd']

theorem sizeBook_total_one : [oneDecision] ≠ [] ∧ ∃ book, sizeBook realFns [oneDecision] oneSector oneVolatility riskYaml =
    .ok book ∧ BookLimits oneVolatility riskYaml book.positions := by
  refine ⟨by simp, (sizeBook_total_iff [oneDecision] oneSector oneVolatility riskYaml (by simp) one_decided).mpr ?_⟩
  intro d hd
  rw [List.mem_singleton.mp hd]
  rfl

/-- A decided name that the volatility map misses makes the sizing raise. -/
theorem sizeBook_missing_volatility : Decided [oneDecision] oneSector ∧
    ¬∃ book, sizeBook realFns [oneDecision] oneSector Dict.empty riskYaml = .ok book := by
  refine ⟨one_decided, fun ⟨book, hbook⟩ => ?_⟩
  have hknown := (sizeBook_within hbook).2 oneDecision (List.mem_singleton.mpr rfl)
  cases hknown

end Baseline
end Sizing
end AsymmetricCommittee
