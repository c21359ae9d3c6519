import AsymmetricCommittee.Theorems.CommitmentRows
import AsymmetricCommittee.Contracts.Samples
import AsymmetricCommittee.Theorems.RunStatus

/-! # The canonical bytes of a commitment

The bytes determine the run's identity, the decisions and the snapshot up to the order of the decisions and the
offsets of the datetimes, and they are determined by these. -/

namespace AsymmetricCommittee

variable {K : Type} [Field K] [LinearOrder K]

/-! ### The payload -/

def orderedDecisions (decisions : List (CommitteeDecisionRecord K)) : List (CommitteeDecisionRecord K) :=
  decisions.insertionSort fun d d' => commitmentKey d ≤ commitmentKey d'

/-- The payload of decisions that are in order. -/
def RunIdentity.payload (i : RunIdentity) (ordered : List (CommitteeDecisionRecord K)) (s : PortfolioSnapshot K) :
    PyValue K :=
  .dict [("v", .str commitmentVersion),
    ("run", .dict [("run_id", .uuid i.runId), ("mode", .enum (.str i.mode.value)), ("as_of", .datetime i.asOf),
      ("config_hash", .str i.configHash)]),
    ("decisions", .list (ordered.map fun d => .ofJson d.dump.canon)),
    ("snapshot", .ofJson s.dump.canon)]

theorem mem_orderedDecisions {decisions : List (CommitteeDecisionRecord K)} {d : CommitteeDecisionRecord K} :
    d ∈ orderedDecisions decisions ↔ d ∈ decisions := (List.perm_insertionSort _ decisions).mem_iff

theorem commitmentPayload_eq (run : RunRecord K) (decisions : List (CommitteeDecisionRecord K))
    (s : PortfolioSnapshot K) :
    commitmentPayload run decisions s =
      if s.runId ≠ run.runId then .error .foreignSnapshot
      else if ∃ d ∈ decisions, d.decision.runId ≠ run.runId then .error .foreignDecision
      else .ok (run.identity.payload (orderedDecisions decisions) s) := by
  have hforeign : (∃ d ∈ orderedDecisions decisions, d.decision.runId ≠ run.runId) ↔
      ∃ d ∈ decisions, d.decision.runId ≠ run.runId := by
    simp [mem_orderedDecisions]
  rw [← ite_congr rfl (fun _ => rfl) fun _ => ite_congr (propext hforeign) (fun _ => rfl) fun _ => rfl]
  rfl

theorem commitmentPayload_eq_ok {run : RunRecord K} {decisions : List (CommitteeDecisionRecord K)}
    {s : PortfolioSnapshot K} {p : PyValue K} :
    commitmentPayload run decisions s = .ok p ↔ s.runId = run.runId ∧
      (∀ d ∈ decisions, d.decision.runId = run.runId) ∧ run.identity.payload (orderedDecisions decisions) s = p := by
  rw [commitmentPayload_eq]
  split
  · next h => simp [h]
  · next h =>
    split
    · next hforeign =>
      obtain ⟨d, hd, hne⟩ := hforeign
      simp only [reduceCtorEq, false_iff, not_and]
      exact fun _ hall => absurd (hall d hd) hne
    · next hforeign =>
      have hall : ∀ d ∈ decisions, d.decision.runId = run.runId := by simpa using hforeign
      exact ⟨fun hp => ⟨not_not.mp h, hall, Except.ok.inj hp⟩, fun hp => congrArg Except.ok hp.2.2⟩

/-! ### The bytes depend on the records in UTC -/

theorem CommitteeDecisionRecord.canon_utc (r : CommitteeDecisionRecord K) : r.utc.dump.canon = r.dump.canon := rfl

theorem PortfolioSnapshot.canon_utc (s : PortfolioSnapshot K) : s.utc.dump.canon = s.dump.canon := by
  have hcio : ∀ cio : Option CioDecision, (PyValue.opt (fun d => d.dump) (cio.map CioDecision.utc) : PyValue K).canon =
      (PyValue.opt (fun d => d.dump) cio).canon := by
    rintro (_ | d) <;> rfl
  simp only [dump, PyValue.canon, PyValue.canonEntries, utc, hcio]
  rfl

theorem RunIdentity.payload_utc (i : RunIdentity) (ordered : List (CommitteeDecisionRecord K)) (s : PortfolioSnapshot K) :
    (i.utc.payload (ordered.map CommitteeDecisionRecord.utc) s.utc).canon = (i.payload ordered s).canon := by
  rw [payload, payload, List.map_map, PortfolioSnapshot.canon_utc]
  rfl

theorem orderedDecisions_utc (decisions : List (CommitteeDecisionRecord K)) :
    (orderedDecisions decisions).map CommitteeDecisionRecord.utc =
      orderedDecisions (decisions.map CommitteeDecisionRecord.utc) :=
  List.map_insertionSort _ _ _ _ fun _ _ _ _ => Iff.rfl

theorem orderedDecisions_perm {decisions decisions' : List (CommitteeDecisionRecord K)}
    (hkeys : (decisions.map commitmentKey).Nodup) (hperm : decisions.Perm decisions') :
    orderedDecisions decisions = orderedDecisions decisions' := by
  have hsorted : ∀ ds : List (CommitteeDecisionRecord K),
      (orderedDecisions ds).Pairwise fun d d' => commitmentKey d ≤ commitmentKey d' := by
    intro ds
    exact List.pairwise_insertionSort (fun d d' => commitmentKey d ≤ commitmentKey d') ds
  refine List.Perm.eq_of_pairwise ?_ (hsorted _) (hsorted _) ?_
  · intro d d' hd hd' hle hle'
    exact List.inj_on_of_nodup_map hkeys (mem_orderedDecisions.mp hd) (hperm.mem_iff.mpr (mem_orderedDecisions.mp hd'))
      (le_antisymm hle hle')
  · exact (List.perm_insertionSort _ _).trans (hperm.trans (List.perm_insertionSort _ _).symm)

section Bytes
variable (F : Json.FloatText K) {run run' : RunRecord K} {decisions decisions' : List (CommitteeDecisionRecord K)}
  {snapshot snapshot' : PortfolioSnapshot K}

/-- Decisions in another order, and datetimes written in other time zones, give the same bytes. -/
theorem commitmentBytes_congr (hkeys : (decisions.map commitmentKey).Nodup)
    (hrun : run'.identity.utc = run.identity.utc)
    (hperm : (decisions'.map CommitteeDecisionRecord.utc).Perm (decisions.map CommitteeDecisionRecord.utc))
    (hsnapshot : snapshot'.utc = snapshot.utc) :
    (commitmentPayload run' decisions' snapshot').map (canonicalBytes F) =
      (commitmentPayload run decisions snapshot).map (canonicalBytes F) := by
  have hrunId : run'.runId = run.runId := congrArg RunIdentity.runId hrun
  have hsnapshotId : snapshot'.utc.runId = snapshot.utc.runId := by rw [hsnapshot]
  simp only [PortfolioSnapshot.utc] at hsnapshotId
  have hforeign : (∃ d ∈ decisions', d.decision.runId ≠ run.runId) ↔ ∃ d ∈ decisions, d.decision.runId ≠ run.runId := by
    have hids := hperm.map fun d => d.decision.runId
    rw [List.map_map, List.map_map] at hids
    have hmem : ∀ u, (u ∈ decisions'.map fun d => d.decision.runId) ↔ u ∈ decisions.map fun d => d.decision.runId :=
      fun u => hids.mem_iff
    have hexists : ∀ ds : List (CommitteeDecisionRecord K), (∃ d ∈ ds, d.decision.runId ≠ run.runId) ↔
        ∃ u ∈ ds.map fun d => d.decision.runId, u ≠ run.runId := by
      simp
    rw [hexists, hexists]
    exact exists_congr fun u => and_congr_left fun _ => hmem u
  have hordered : (orderedDecisions decisions').map CommitteeDecisionRecord.utc =
      (orderedDecisions decisions).map CommitteeDecisionRecord.utc := by
    rw [orderedDecisions_utc, orderedDecisions_utc]
    refine (orderedDecisions_perm ?_ hperm.symm).symm
    rw [List.map_map]
    exact hkeys
  have hbytes : canonicalBytes F (run'.identity.payload (orderedDecisions decisions') snapshot') =
      canonicalBytes F (run.identity.payload (orderedDecisions decisions) snapshot) := by
    rw [canonicalBytes, canonicalBytes, ← RunIdentity.payload_utc, hrun, hordered, hsnapshot, RunIdentity.payload_utc]
  simp only [commitmentPayload_eq, hrunId, hsnapshotId, hforeign]
  split
  · rfl
  · split
    · rfl
    · exact congrArg Except.ok hbytes

open PyValue (doc doc_str doc_uuid doc_datetime doc_dict_inj doc_ofJson map_doc_inj) in
theorem RunIdentity.doc_inj {i i' : RunIdentity} {ordered ordered' : List (CommitteeDecisionRecord K)}
    {s s' : PortfolioSnapshot K} (h : doc (i.payload ordered s) = doc (i'.payload ordered' s')) :
    i.utc = i'.utc ∧ ordered.map CommitteeDecisionRecord.utc = ordered'.map CommitteeDecisionRecord.utc ∧
      s.utc = s'.utc := by
  have hfields := doc_dict_inj h rfl (by simp)
  simp only [List.map_cons, List.map_nil, List.cons.injEq, and_true, doc_ofJson] at hfields
  obtain ⟨-, hrun, hdecisions, hsnapshot⟩ := hfields
  have hidentity := doc_dict_inj hrun rfl (by simp)
  simp only [List.map_cons, List.map_nil, List.cons.injEq, and_true] at hidentity
  obtain ⟨hid, hmode, hasOf, hconfig⟩ := hidentity
  have hid := doc_uuid hid
  have hmode := RunMode.value_injective (Json.str.inj hmode)
  have hasOf := doc_datetime hasOf
  have hconfig := Subtype.ext (doc_str hconfig)
  refine ⟨?_, ?_, PortfolioSnapshot.doc_inj hsnapshot⟩
  · cases i
    cases i'
    simp only at hid hmode hasOf hconfig
    simp [utc, *]
  · refine map_doc_inj (fun d d' hd => CommitteeDecisionRecord.doc_inj ?_) hdecisions
    rwa [doc_ofJson, doc_ofJson] at hd

/-- The same bytes come from the same identity, decisions and snapshot. -/
theorem commitmentBytes_inj {text : String}
    (h : (commitmentPayload run decisions snapshot).map (canonicalBytes F) = .ok text)
    (h' : (commitmentPayload run' decisions' snapshot').map (canonicalBytes F) = .ok text) :
    run'.identity.utc = run.identity.utc ∧
      (decisions'.map CommitteeDecisionRecord.utc).Perm (decisions.map CommitteeDecisionRecord.utc) ∧
      snapshot'.utc = snapshot.utc := by
  obtain ⟨p, hp, htext⟩ := Except.map_eq_ok.mp h
  obtain ⟨p', hp', htext'⟩ := Except.map_eq_ok.mp h'
  obtain ⟨-, -, rfl⟩ := commitmentPayload_eq_ok.mp hp
  obtain ⟨-, -, rfl⟩ := commitmentPayload_eq_ok.mp hp'
  have hdoc := Json.render_injective F (String.ofList_inj.mp (htext'.trans htext.symm))
  obtain ⟨hrun, hordered, hsnapshot⟩ := RunIdentity.doc_inj hdoc
  refine ⟨hrun, ?_, hsnapshot⟩
  have hperm : ∀ ds : List (CommitteeDecisionRecord K),
      ((orderedDecisions ds).map CommitteeDecisionRecord.utc).Perm (ds.map CommitteeDecisionRecord.utc) :=
    fun ds => (List.perm_insertionSort _ ds).map _
  exact (hperm decisions').symm.trans (hordered ▸ hperm decisions)

end Bytes

/-! ### The rows of a run -/

theorem exists_perm_of_map_perm {α β : Type} {f : α → β} {l : List β} {as : List α} (h : l.Perm (as.map f)) :
    ∃ as' : List α, as'.Perm as ∧ l = as'.map f := by
  have hforall : List.Forall₂ (fun b a => b = f a) (as.map f) as := by
    rw [List.forall₂_map_left_iff]
    exact List.forall₂_same.mpr fun _ _ => rfl
  obtain ⟨as', hmap, hperm⟩ := List.perm_comp_forall₂ h hforall
  refine ⟨as', hperm, ?_⟩
  clear hperm h hforall
  induction hmap with
  | nil => rfl
  | cons h _ ih => rw [List.map_cons, h, ih]

section Rows
variable {V : Type} (c : StoreCodec) {db : RunTables K V} {run : RunRecord K}
  {decisions : List (CommitteeDecisionRecord K)} {snapshot : PortfolioSnapshot K}

theorem decisionsFromRows_columns (run : RunRecord K) (decisions : List (CommitteeDecisionRecord K))
    (hrun : ∀ d ∈ decisions, d.decision.runId = run.runId)
    (hasOf : ∀ d ∈ decisions, d.decision.asOf.instant = run.asOf.instant) :
    ∃ decisions', decisionsFromRows run ((decisions.map Store.decisionRow).map (·.columns c)) = .ok decisions' ∧
      decisions'.map CommitteeDecisionRecord.utc = decisions.map CommitteeDecisionRecord.utc := by
  induction decisions with
  | nil => exact ⟨[], rfl, rfl⟩
  | cons d decisions ih =>
    rw [List.forall_mem_cons] at hrun hasOf
    obtain ⟨d', hd', hutc⟩ := decisionFromRow_columns c d hrun.1 hasOf.1
    obtain ⟨decisions', hdecisions', hutcs⟩ := ih hrun.2 hasOf.2
    refine ⟨d' :: decisions', ?_, by rw [List.map_cons, List.map_cons, hutc, hutcs]⟩
    exact Except.mapM_eq_ok.mpr (List.Forall₂.cons hd' (Except.mapM_eq_ok.mp hdecisions'))

/-- The rows of a run, in whatever order they were stored, are loaded as its decisions. -/
theorem loadDecisions_of_rows
    (hrows : (db.committeeDecisions.filter fun d => decide (d.runId = run.runId)).Perm (decisions.map Store.decisionRow))
    (hrun : ∀ d ∈ decisions, d.decision.runId = run.runId)
    (hasOf : ∀ d ∈ decisions, d.decision.asOf.instant = run.asOf.instant) :
    ∃ decisions', Store.loadDecisions c db run = .ok decisions' ∧
      (decisions'.map CommitteeDecisionRecord.utc).Perm (decisions.map CommitteeDecisionRecord.utc) := by
  obtain ⟨ordered, hperm, hordered⟩ := exists_perm_of_map_perm ((List.perm_insertionSort (fun d d' : DecisionRow K =>
    toLex (d.securityId.val, d.horizon.value) ≤ toLex (d'.securityId.val, d'.horizon.value)) _).trans hrows)
  obtain ⟨decisions', hload, hutc⟩ := decisionsFromRows_columns c run ordered
    (fun d hd => hrun d (hperm.subset hd)) fun d hd => hasOf d (hperm.subset hd)
  refine ⟨decisions', ?_, hutc ▸ hperm.map _⟩
  rw [Store.loadDecisions, Store.decisionRows, hordered, hload]

theorem loadSnapshot_of_row (h : db.snapshot? run.runId = some snapshot) :
    ∃ snapshot', Store.loadSnapshot c db run.runId = .ok (some snapshot') ∧ snapshot'.utc = snapshot.utc := by
  obtain ⟨snapshot', hread, hutc⟩ := snapshotFromRow_columns c snapshot
  refine ⟨snapshot', ?_, hutc⟩
  rw [Store.loadSnapshot, h]
  simp only [hread]

/-- Decisions with distinct keys have rows with distinct keys. -/
theorem unique_decisionRows (hkeys : (decisions.map commitmentKey).Nodup) :
    KeyedTable.Unique RunTables.decisionKey (decisions.map Store.decisionRow) := by
  refine List.Nodup.of_map (fun k : UUID × SecurityId × Horizon => toLex (k.2.1.val, k.2.2.value)) ?_
  rw [List.map_map, List.map_map]
  exact hkeys

theorem filter_run_eq_nil {rows : List (DecisionRow K)} {runId : UUID} (h : ∀ d ∈ rows, d.runId ≠ runId) :
    rows.filter (fun d => decide (d.runId = runId)) = [] := by
  rw [List.filter_eq_nil_iff]
  exact fun d hd => by simpa using h d hd

theorem filter_run_eq_self {runId : UUID} (h : ∀ d ∈ decisions, d.decision.runId = runId) :
    (decisions.map Store.decisionRow).filter (fun d => decide (d.runId = runId)) = decisions.map Store.decisionRow := by
  rw [List.filter_eq_self]
  intro d hd
  obtain ⟨r, hr, rfl⟩ := List.mem_map.mp hd
  exact decide_eq_true (h r hr)

/-- Decisions written where the run had none are all of its rows. -/
theorem rows_inserted {runId : UUID} (hfresh : ∀ d ∈ db.committeeDecisions, d.runId ≠ runId)
    (hkeys : (decisions.map commitmentKey).Nodup) (hrun : ∀ d ∈ decisions, d.decision.runId = runId) :
    (KeyedTable.insertAll RunTables.decisionKey db.committeeDecisions (decisions.map Store.decisionRow)).filter
      (fun d => decide (d.runId = runId)) = decisions.map Store.decisionRow := by
  have hnew : ∀ r ∈ decisions.map Store.decisionRow,
      KeyedTable.find RunTables.decisionKey db.committeeDecisions (RunTables.decisionKey r) = none := by
    intro r hr
    obtain ⟨d, hd, rfl⟩ := List.mem_map.mp hr
    refine KeyedTable.find_eq_none.mpr fun x hx hkey => hfresh x hx ?_
    exact (Prod.ext_iff.mp hkey).1.trans (hrun d hd)
  rw [KeyedTable.insertAll_of_fresh hnew (unique_decisionRows hkeys), List.filter_append, filter_run_eq_nil hfresh,
    filter_run_eq_self hrun, List.nil_append]

end Rows

/-- The bytes of a commitment are those of its identity, decisions and snapshot, whatever the order of the decisions
    and the time zones; they come from no others; and what is stored of them gives them back. -/
theorem commitmentBytes_canonical (F : Json.FloatText K) {V : Type} (c : StoreCodec) {run : RunRecord K}
    {decisions : List (CommitteeDecisionRecord K)} {snapshot : PortfolioSnapshot K}
    (hkeys : (decisions.map commitmentKey).Nodup) :
    (∀ (run' : RunRecord K) (decisions' : List (CommitteeDecisionRecord K)) (snapshot' : PortfolioSnapshot K),
      run'.identity.utc = run.identity.utc →
      (decisions'.map CommitteeDecisionRecord.utc).Perm (decisions.map CommitteeDecisionRecord.utc) →
      snapshot'.utc = snapshot.utc →
      (commitmentPayload run' decisions' snapshot').map (canonicalBytes F) =
        (commitmentPayload run decisions snapshot).map (canonicalBytes F)) ∧
    (∀ (run' : RunRecord K) (decisions' : List (CommitteeDecisionRecord K)) (snapshot' : PortfolioSnapshot K)
      (text : String), (commitmentPayload run decisions snapshot).map (canonicalBytes F) = .ok text →
      (commitmentPayload run' decisions' snapshot').map (canonicalBytes F) = .ok text →
      run'.identity.utc = run.identity.utc ∧
        (decisions'.map CommitteeDecisionRecord.utc).Perm (decisions.map CommitteeDecisionRecord.utc) ∧
        snapshot'.utc = snapshot.utc) ∧
    ∀ (db db' : RunTables K V) (run' : RunRecord K) (text : String),
      (commitmentPayload run decisions snapshot).map (canonicalBytes F) = .ok text →
      (∀ d ∈ decisions, d.decision.asOf.instant = run.asOf.instant) →
      (∀ d ∈ db.committeeDecisions, d.runId ≠ run.runId) → db.snapshot? run.runId = none →
      (Store.insertCommitteeDecisions db decisions).map (Store.insertPortfolioSnapshot · snapshot) = .ok db' →
      run'.identity.utc = run.identity.utc →
      ∃ decisions' snapshot', Store.loadDecisions c db' run' = .ok decisions' ∧
        Store.loadSnapshot c db' run'.runId = .ok (some snapshot') ∧
        (commitmentPayload run' decisions' snapshot').map (canonicalBytes F) = .ok text := by
  refine ⟨fun run' decisions' snapshot' => commitmentBytes_congr F hkeys,
    fun run' decisions' snapshot' text => commitmentBytes_inj F, ?_⟩
  intro db db' run' text htext hasOf hfresh hunstored hwrite hidentity
  obtain ⟨p, hp, -⟩ := Except.map_eq_ok.mp htext
  obtain ⟨hsnapshotRun, hdecisionRun, -⟩ := commitmentPayload_eq_ok.mp hp
  have hrunId : run'.runId = run.runId := congrArg RunIdentity.runId hidentity
  have hrunAsOf : run'.asOf.instant = run.asOf.instant :=
    congrArg (fun i : RunIdentity => i.asOf.instant) hidentity
  obtain ⟨db₁, hinsert, rfl⟩ := Except.map_eq_ok.mp hwrite
  have hdb := Sink.insertCommitteeDecisions_eq_ok hinsert
  have hrows : ((Store.insertPortfolioSnapshot db₁ snapshot).committeeDecisions.filter
      fun d => decide (d.runId = run'.runId)) = decisions.map Store.decisionRow := by
    rw [hdb, hrunId]
    exact rows_inserted hfresh hkeys hdecisionRun
  have hsnapshot : (Store.insertPortfolioSnapshot db₁ snapshot).snapshot? run'.runId = some snapshot := by
    rw [RunTables.snapshot?, Store.insertPortfolioSnapshot, KeyedTable.find_insertNew, hdb, hrunId,
      show KeyedTable.find PortfolioSnapshot.runId db.portfolioSnapshots run.runId = none from hunstored,
      Option.none_or, KeyedTable.find_cons, if_pos hsnapshotRun]
  obtain ⟨decisions', hload, hperm⟩ := loadDecisions_of_rows c (List.Perm.of_eq hrows)
    (fun d hd => (hdecisionRun d hd).trans hrunId.symm) fun d hd => (hasOf d hd).trans hrunAsOf.symm
  obtain ⟨snapshot', hloadSnapshot, hutc⟩ := loadSnapshot_of_row c hsnapshot
  refine ⟨decisions', snapshot', hload, hloadSnapshot, ?_⟩
  rw [commitmentBytes_congr F hkeys hidentity hperm hutc, htext]

/-! ### Two decisions -/

/-- Decimal texts of whole numbers; other rationals are told apart by their denominator. -/
def decimalText : Json.FloatText ℚ where
  text x := Json.intText x.num ++ if x.den = 1 then ['.', '0'] else 'e' :: Json.intText x.den
  injective x y h := by
    have hhead : ∀ z : ℚ, ∀ ch ∈ (if z.den = 1 then ['.', '0'] else 'e' :: Json.intText z.den).head?,
        (ch.isDigit || ch = '-') = false := by
      intro z ch hch
      split at hch <;> cases hch <;> rfl
    have hint : ∀ n : Int, ∀ ch ∈ Json.intText n, (ch.isDigit || ch = '-') = true := by
      intro n ch hch
      rcases Json.mem_intText hch with h | h <;> simp [h]
    obtain ⟨hnum, hden⟩ := Json.append_inj_of_span (hint _) (hint _) (hhead x) (hhead y) h
    refine Rat.ext (Json.intText_injective hnum) ?_
    split at hden <;> split at hden
    · next hx hy => rw [hx, hy]
    · simp at hden
    · simp at hden
    · exact Int.ofNat.inj (Json.intText_injective (List.cons.inj hden).2)
  chars x ch hch := by
    rcases List.mem_append.mp hch with hch | hch
    · exact Json.intText_chars _ ch hch
    · split at hch
      · simp only [List.mem_cons, List.not_mem_nil, or_false] at hch
        rcases hch with rfl | rfl <;> rfl
      · rcases List.mem_cons.mp hch with rfl | hch
        · rfl
        · exact Json.intText_chars _ ch hch
  marked x := by
    split
    · exact ⟨'.', by simp, Or.inl rfl⟩
    · exact ⟨'e', by simp, Or.inr rfl⟩

/-- Texts in UTC with microseconds, read back by what they are the texts of; a session in UTC. -/
noncomputable def utcCodec : StoreCodec where
  datetimeText d := IsoTime.isoUtcMicros d.instant
  parseDatetime s := open Classical in if h : ∃ i, IsoTime.isoUtcMicros i = s then some ⟨h.choose, 0⟩ else none
  uuidText := UUID.str
  parseUuid s := open Classical in if h : ∃ u : UUID, u.str = s then some h.choose else none
  sessionOffset _ := 0
  parse_datetimeText d := by
    have h : ∃ i, IsoTime.isoUtcMicros i = IsoTime.isoUtcMicros d.instant := ⟨d.instant, rfl⟩
    exact ⟨⟨h.choose, 0⟩, dif_pos h, IsoTime.isoUtcMicros_injective h.choose_spec⟩
  parse_uuidText u := by
    have h : ∃ v : UUID, v.str = u.str := ⟨u, rfl⟩
    rw [dif_pos h, UUID.str_injective h.choose_spec]

/-- A decision of run 1 by its value agent. -/
def decisionAt (securityId : SecurityId) (horizon : Horizon) : CommitteeDecisionRecord ℚ where
  decision := {
    runId := ⟨1⟩, securityId, entityToken := ⟨"ENT_01", by decide⟩, asOf := ⟨0, 0⟩, horizonDays := horizon
    pooledP := ⟨1, Samples.probability_one ℚ⟩, dispersion := ⟨0, nonNegative_zero ℚ⟩, agentWeights := [⟨.value, ⟨1, Samples.nonNegative_one ℚ⟩⟩]
    bearSeverity := none, targetWeight := ⟨0, by norm_num [maxPositionCap]⟩, weights_nonempty := by simp
    weights_unique := by simp, weights_voting := Or.inr (by decide) }
  pooledLogit := none
  sizingMode := some .rank
  cioAction := none
  rationale := none
  rationale_short := nofun

/-- Run 1 holds cash. -/
def cashSnapshot : PortfolioSnapshot ℚ where
  runId := ⟨1⟩
  asOf := ⟨0, 0⟩
  book := ⟨⟨1⟩, ⟨0, 0⟩, [], by simp, by simp, Samples.empty_gross⟩
  cashWeight := ⟨1, Samples.probability_one ℚ⟩
  cio := none
  book_run := rfl
  book_asOf := rfl
  cash_residual := by norm_num [ProposedBook.cashWeight, grossExposure]

/-- Two decisions that come in the other order. -/
theorem commitmentBytes_canonical_swapped :
    (commitmentPayload (Sink.runAt .committed) [decisionAt ⟨1, by decide⟩ .d21, decisionAt ⟨1, by decide⟩ .d5]
      cashSnapshot).map (canonicalBytes decimalText) =
    (commitmentPayload (Sink.runAt .committed) [decisionAt ⟨1, by decide⟩ .d5, decisionAt ⟨1, by decide⟩ .d21]
      cashSnapshot).map (canonicalBytes decimalText) :=
  (commitmentBytes_canonical decimalText (V := Unit) utcCodec (by decide)).1 _ _ _ rfl (List.Perm.swap _ _ []) rfl

end AsymmetricCommittee
