import AsymmetricCommittee.Store.Material
import AsymmetricCommittee.Theorems.CommitmentEncoding

/-! # Committed rows are read back as the records that were written

A dump in JSON mode, kept in a JSONB column, validates to what was dumped, up to the offset of its datetimes. -/

namespace AsymmetricCommittee

/-! ### JSON columns -/

namespace PyValue
variable {N : Type} (c : StoreCodec)

theorem jsonEntries_eq (es : List (String × PyValue N)) : jsonEntries c es = es.map fun e => (e.1, json c e.2) := by
  induction es with
  | nil => rfl
  | cons e es ih => rw [jsonEntries, ih, List.map_cons]

theorem jsonItems_eq (vs : List (PyValue N)) : jsonItems c vs = vs.map (json c) := by
  induction vs with
  | nil => rfl
  | cons v vs ih => rw [jsonItems, ih, List.map_cons]

/-- What a column with a dump is read back as. -/
def column (v : PyValue N) : Json N := jsonb (v.json c)

theorem column_list (vs : List (PyValue N)) : column c (.list vs) = .arr (vs.map (column c)) := by
  rw [column, json, jsonItems_eq, jsonb, Json.sortBy_arr, List.map_map]
  rfl

@[simp] theorem column_str (s : String) : column c (.str s : PyValue N) = .str s := rfl

@[simp] theorem column_int (n : Int) : column c (.int n : PyValue N) = .int n := rfl

@[simp] theorem column_float (x : N) : column c (.float x) = .float x := rfl

@[simp] theorem column_enum (v : PyValue N) : column c (.enum v) = column c v := rfl

@[simp] theorem column_uuid (u : UUID) : column c (.uuid u : PyValue N) = .str (c.uuidText u) := rfl

@[simp] theorem column_datetime (d : AwareDatetime) :
    column c (.datetime d : PyValue N) = .str (c.datetimeText d) := rfl

/-- The fields of a dump are read back under their keys. -/
theorem record?_column (fields : List String) {v : PyValue N} {es : List (String × PyValue N)} (hv : v = .dict es)
    (hkeys : es.map Prod.fst = fields) (hnodup : fields.Nodup) :
    ∃ field, (column c v).record? fields = some field ∧ ∀ e ∈ es, field e.1 = some (column c e.2) := by
  have hmap : (es.map fun e => (e.1, json c e.2)).map Prod.fst = fields := by
    rw [List.map_map]
    exact hkeys
  have hget := Json.get?_sortBy (fun key : String => toLex (key.utf8ByteSize, key)) (hmap.symm ▸ hnodup)
  have hperm := Json.sorted_perm (fun key : String => toLex (key.utf8ByteSize, key)) (es.map fun e => (e.1, json c e.2))
  have hfields : ∀ e ∈ (Json.sortEntries (fun key : String => toLex (key.utf8ByteSize, key))
      (es.map fun e => (e.1, json c e.2))).insertionSort
        (fun e e' => toLex (e.1.utf8ByteSize, e.1) ≤ toLex (e'.1.utf8ByteSize, e'.1)), e.1 ∈ fields := by
    intro e he
    have hmem := List.mem_map_of_mem (f := Prod.fst) (hperm.subset he)
    rw [List.map_map] at hmem
    exact hmap ▸ hmem
  rw [hv, column, json, jsonEntries_eq, jsonb, Json.sortBy, Json.record?, if_pos hfields]
  refine ⟨_, rfl, fun e he => ?_⟩
  have hkey := hget e.1
  rw [Json.sortBy, Json.get?] at hkey
  have hmem : (e.1, json c e.2) ∈ es.map fun e => (e.1, json c e.2) := List.mem_map.mpr ⟨e, he, rfl⟩
  rw [hkey, (Json.lookup_eq_some (hmap.symm ▸ hnodup)).mpr hmem]
  rfl

theorem mapM_column {α : Type} {dump : α → PyValue N} {validate : Json N → Option α}
    (h : ∀ a, validate (column c (dump a)) = some a) (as : List α) :
    ((as.map dump).map (column c)).mapM validate = some as := by
  induction as with
  | nil => rfl
  | cons a as ih =>
    simp only [List.map_cons, List.mapM_cons, h, ih]
    rfl

end PyValue

/-! ### Fields -/

theorem bind_eq_some_of {α β : Type} {x : Option α} {f : α → Option β} {a : α} {b : β} (hx : x = some a)
    (hf : f a = some b) : (x >>= f) = some b := by
  rw [hx]
  exact hf

section Fields
variable {K : Type} [Field K] [LinearOrder K]

theorem label?_val (l : Label) : label? l.val = some l := dif_pos l.2

theorem entityToken?_val (t : EntityToken) : entityToken? t.val = some t := dif_pos t.2

theorem securityId?_val (n : SecurityId) : securityId? n.val = some n := dif_pos n.2

theorem probability?_val (x : Probability K) : probability? x.val = some x := dif_pos x.2

theorem weight?_val (x : Weight K) : weight? x.val = some x := dif_pos x.2

theorem nonNegative?_val (x : NonNegative K) : nonNegative? x.val = some x := dif_pos x.2

theorem AgentName.ofValue?_value (a : AgentName) : AgentName.ofValue? a.enumValue = some a := by
  cases a <;> rfl

theorem CioAction.ofValue?_value (a : CioAction) : CioAction.ofValue? a.value = some a := by
  cases a <;> rfl

theorem Horizon.ofValue?_value (h : Horizon) : Horizon.ofValue? h.value = some h := by
  cases h <;> rfl

theorem enumOrNone_bearSeverity (s : Option BearSeverity) :
    enumOrNone BearSeverity.ofValue? (s.map (·.value)) = some s := by
  rcases s with _ | s
  · rfl
  · cases s <;> rfl

theorem enumOrNone_cioAction (a : Option CioAction) : enumOrNone CioAction.ofValue? (a.map (·.value)) = some a := by
  rcases a with _ | a
  · rfl
  · cases a <;> rfl

theorem enumOrNone_sizingMode (m : Option SizingMode) : enumOrNone SizingMode.ofValue? (m.map (·.value)) = some m := by
  rcases m with _ | m
  · rfl
  · cases m <;> rfl

end Fields

/-! ### Records -/

section Records
variable {K : Type} [Field K] [LinearOrder K] (c : StoreCodec)

open PyValue (column column_list column_enum column_str record?_column mapM_column)

theorem AgentWeight.validate_column (w : AgentWeight K) : AgentWeight.validate (column c w.dump) = some w := by
  obtain ⟨field, hrecord, hfield⟩ := record?_column c ["agent", "weight"] (v := w.dump) rfl rfl (by simp)
  simp only [List.forall_mem_cons] at hfield
  obtain ⟨hagent, hweight, -⟩ := hfield
  exact bind_eq_some_of hrecord <|
    bind_eq_some_of hagent <| bind_eq_some_of rfl <| bind_eq_some_of (AgentName.ofValue?_value _) <|
    bind_eq_some_of hweight <| bind_eq_some_of rfl <| bind_eq_some_of (nonNegative?_val _) rfl

theorem ProposedPosition.validate_column (p : ProposedPosition K) :
    ProposedPosition.validate (column c p.dump) = some p := by
  obtain ⟨field, hrecord, hfield⟩ := record?_column c ["security_id", "entity_token", "sector", "pooled_p",
    "target_weight"] (v := p.dump) rfl rfl (by simp)
  simp only [List.forall_mem_cons] at hfield
  obtain ⟨hsid, htoken, hsector, hp, hweight, -⟩ := hfield
  exact bind_eq_some_of hrecord <|
    bind_eq_some_of hsid <| bind_eq_some_of rfl <| bind_eq_some_of (securityId?_val _) <|
    bind_eq_some_of htoken <| bind_eq_some_of rfl <| bind_eq_some_of (entityToken?_val _) <|
    bind_eq_some_of hsector <| bind_eq_some_of rfl <| bind_eq_some_of (label?_val _) <|
    bind_eq_some_of hp <| bind_eq_some_of rfl <| bind_eq_some_of (probability?_val _) <|
    bind_eq_some_of hweight <| bind_eq_some_of rfl <| bind_eq_some_of (weight?_val _) rfl

theorem CioNameDecision.validate_column {N : Type} (d : CioNameDecision) :
    CioNameDecision.validate (column c (d.dump : PyValue N)) = some d := by
  obtain ⟨field, hrecord, hfield⟩ := record?_column c ["entity_token", "action", "reason"] (v := (d.dump : PyValue N))
    rfl rfl (by simp)
  simp only [List.forall_mem_cons] at hfield
  obtain ⟨htoken, haction, hreason, -⟩ := hfield
  exact bind_eq_some_of hrecord <|
    bind_eq_some_of htoken <| bind_eq_some_of rfl <| bind_eq_some_of (entityToken?_val _) <|
    bind_eq_some_of haction <| bind_eq_some_of rfl <| bind_eq_some_of (CioAction.ofValue?_value _) <|
    bind_eq_some_of hreason <| bind_eq_some_of rfl <| dif_pos ⟨d.reason_short, d.reason_given⟩

theorem ProposedBook.validate_column (b : ProposedBook K) :
    ∃ b', ProposedBook.validate c (column c b.dump) = some b' ∧ b'.utc = b.utc := by
  obtain ⟨asOf, hparse, hinstant⟩ := c.parse_datetimeText b.asOf
  obtain ⟨field, hrecord, hfield⟩ := record?_column c ["run_id", "as_of", "positions"] (v := b.dump) rfl rfl (by simp)
  simp only [List.forall_mem_cons, column_list] at hfield
  obtain ⟨hrun, hasOf, hpositions, -⟩ := hfield
  refine ⟨{ b with asOf := asOf }, ?_, by simp [utc, AwareDatetime.utc, hinstant]⟩
  have hmake : (ProposedBook.make b.runId asOf b.positions).toOption = some { b with asOf := asOf } := by
    rw [ProposedBook.make, dif_pos ⟨b.ids_unique, b.tokens_unique⟩, dif_pos b.gross_le]
    rfl
  exact bind_eq_some_of hrecord <|
    bind_eq_some_of hrun <| bind_eq_some_of rfl <| bind_eq_some_of (c.parse_uuidText _) <|
    bind_eq_some_of hasOf <| bind_eq_some_of rfl <| bind_eq_some_of hparse <|
    bind_eq_some_of hpositions <| bind_eq_some_of rfl <|
    bind_eq_some_of (mapM_column c (ProposedPosition.validate_column c) _) hmake

theorem CioDecision.validate_column {N : Type} (d : CioDecision) :
    ∃ d', CioDecision.validate c (column c (d.dump : PyValue N)) = some d' ∧ d'.utc = d.utc := by
  obtain ⟨asOf, hparse, hinstant⟩ := c.parse_datetimeText d.asOf
  obtain ⟨field, hrecord, hfield⟩ := record?_column c ["decisions", "rationale", "run_id", "agent", "as_of",
    "prompt_version", "model_served"] (v := (d.dump : PyValue N)) rfl rfl (by simp)
  simp only [List.forall_mem_cons, column_list] at hfield
  obtain ⟨hdecisions, hrationale, hrun, hagent, hasOf, hprompt, hmodel, -⟩ := hfield
  refine ⟨{ d with asOf := asOf }, ?_, by simp [utc, AwareDatetime.utc, hinstant]⟩
  have hcio : cioAgent? (field "agent") = some () := by
    rw [hagent, column_enum, column_str]
    exact bind_eq_some_of rfl (if_pos rfl)
  exact bind_eq_some_of hrecord <|
    bind_eq_some_of hdecisions <| bind_eq_some_of rfl <|
    bind_eq_some_of (mapM_column c (CioNameDecision.validate_column c) _) <|
    bind_eq_some_of hrationale <| bind_eq_some_of rfl <|
    bind_eq_some_of hrun <| bind_eq_some_of rfl <| bind_eq_some_of (c.parse_uuidText _) <|
    bind_eq_some_of hcio <|
    bind_eq_some_of hasOf <| bind_eq_some_of rfl <| bind_eq_some_of hparse <|
    bind_eq_some_of hprompt <| bind_eq_some_of rfl <| bind_eq_some_of (label?_val _) <|
    bind_eq_some_of hmodel <| bind_eq_some_of rfl <| bind_eq_some_of (label?_val _) <|
    dif_pos ⟨d.rationale.2, d.tokens_unique⟩

theorem decisionFromRow_of {run : RunRecord K} {row : DecisionColumns K} {token : String} {record : CommitteeDecisionRecord K}
    (htoken : row.entityToken = some token) (hrecord : decisionOfColumns run token row = some record) :
    decisionFromRow run row = .ok record := by
  rw [decisionFromRow, htoken]
  dsimp only
  rw [hrecord]

/-- The decision rows of a run give back its decisions, with the run's decision time. -/
theorem decisionFromRow_columns {run : RunRecord K} (r : CommitteeDecisionRecord K)
    (hrun : r.decision.runId = run.runId) (hasOf : r.decision.asOf.instant = run.asOf.instant) :
    ∃ r', decisionFromRow run ((Store.decisionRow r).columns c) = .ok r' ∧ r'.utc = r.utc := by
  refine ⟨{ r with decision := { r.decision with runId := run.runId, asOf := run.asOf } }, ?_, ?_⟩
  · have hweights : ((Store.decisionRow r).columns c).weights =
        .arr ((r.decision.agentWeights.map AgentWeight.dump).map (column c)) := by
      rw [DecisionRow.columns, jsonb, Json.sortBy_arr, List.map_map, List.map_map]
      rfl
    have hrecord : decisionOfColumns run r.decision.entityToken ((Store.decisionRow r).columns c) =
        some { r with decision := { r.decision with runId := run.runId, asOf := run.asOf } } := by
      refine bind_eq_some_of (securityId?_val r.decision.securityId) <|
        bind_eq_some_of (entityToken?_val _) <| bind_eq_some_of (Horizon.ofValue?_value r.decision.horizonDays) <|
        bind_eq_some_of (probability?_val r.decision.pooledP) <|
        bind_eq_some_of (nonNegative?_val r.decision.dispersion) <| ?_
      rw [hweights]
      exact bind_eq_some_of rfl <|
        bind_eq_some_of (mapM_column c (AgentWeight.validate_column c) _) <|
        bind_eq_some_of (enumOrNone_bearSeverity r.decision.bearSeverity) <|
        bind_eq_some_of (weight?_val r.decision.targetWeight) <|
        bind_eq_some_of (enumOrNone_sizingMode r.sizingMode) <|
        bind_eq_some_of (enumOrNone_cioAction r.cioAction) <|
        dif_pos ⟨r.decision.weights_nonempty, r.decision.weights_unique, r.decision.weights_voting, r.rationale_short⟩
    exact decisionFromRow_of rfl hrecord
  · simp [CommitteeDecisionRecord.utc, CommitteeDecision.utc, AwareDatetime.utc, hrun, hasOf]

theorem snapshotFromRow_columns (s : PortfolioSnapshot K) :
    ∃ s', snapshotFromRow c (s.columns c) = some s' ∧ s'.utc = s.utc := by
  obtain ⟨book, hbook, hbookUtc⟩ := ProposedBook.validate_column c s.book
  have hrun : book.utc.runId = s.book.utc.runId := by rw [hbookUtc]
  have hasOf : book.utc.asOf.instant = s.book.utc.asOf.instant := by rw [hbookUtc]
  have hpositions : book.utc.positions = s.book.utc.positions := by rw [hbookUtc]
  simp only [ProposedBook.utc, AwareDatetime.utc] at hrun hasOf hpositions
  have hcio : ∃ cio, validateCio c (s.columns c).cio = some cio ∧
      cio.map CioDecision.utc = s.cio.map CioDecision.utc := by
    cases hcio : s.cio with
    | none => exact ⟨none, by simp [PortfolioSnapshot.columns, hcio, validateCio], rfl⟩
    | some d =>
      obtain ⟨d', hd', hutc⟩ := CioDecision.validate_column (N := K) c d
      have hcolumn : (s.columns c).cio = some (column c d.dump) := by simp [PortfolioSnapshot.columns, hcio, column]
      exact ⟨some d', by rw [hcolumn, validateCio, hd', Option.map_some], congrArg some hutc⟩
  obtain ⟨cio, hcio, hcioUtc⟩ := hcio
  have hcash : |s.cashWeight.val - book.cashWeight| ≤ 1e-9 := by
    rw [ProposedBook.cashWeight, hpositions]
    exact s.cash_residual
  refine ⟨⟨s.runId, c.timestamptz s.asOf, book, s.cashWeight, cio, hrun.trans s.book_run, hasOf.trans s.book_asOf,
    hcash⟩, ?_, ?_⟩
  · exact bind_eq_some_of hbook <| bind_eq_some_of (probability?_val s.cashWeight) <| bind_eq_some_of hcio <|
      dif_pos ⟨hrun.trans s.book_run, hasOf.trans s.book_asOf, hcash⟩
  · simp only [PortfolioSnapshot.utc, hbookUtc, hcioUtc]
    rfl

end Records
end AsymmetricCommittee
