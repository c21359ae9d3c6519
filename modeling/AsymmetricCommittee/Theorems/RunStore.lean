import AsymmetricCommittee.Orchestration.Sink

/-! What each store operation does to the run tables: one specification for each, from which the invariants
    over runs are derived. -/

namespace AsymmetricCommittee
namespace Sink
open Store

variable {K V : Type} [Field K] [LinearOrder K] {sha256 : String → Sha256Hex} {json : AuditJson K}
  {db db' : RunTables K V} {runId : UUID}

/-! ### The run row -/

theorem run?_updateRun (db : RunTables K V) (runId : UUID) (cond : RunRow K → Bool) {set : RunRow K → RunRow K}
    (hset : ∀ r, (set r).runId = r.runId) (id : UUID) :
    (db.updateRun runId cond set).run? id =
      if id = runId then (db.run? id).map fun r => if cond r then set r else r else db.run? id := by
  refine KeyedTable.find_modify (fun r => ?_) db.runs runId id
  split
  · exact hset r
  · rfl

/-- The row a flush leaves for its run. -/
def flushedRow (stored : Option (RunRow K)) (run : RunRecord K) : RunRow K :=
  match stored with
  | none => run.toRunRow
  | some stored => if upsertAllowed stored run.status then setMutable run.toRunRow stored else stored

theorem run?_upsertRun (db : RunTables K V) (run : RunRecord K) (id : UUID) :
    (upsertRun db run).run? id = if id = run.runId then some (flushedRow (db.run? id) run) else db.run? id := by
  unfold upsertRun
  cases h : db.run? run.runId with
  | none =>
    have happend : RunTables.run? { db with runs := db.runs ++ [run.toRunRow] } id =
        (db.run? id).or (if run.runId = id then some run.toRunRow else none) := by
      simp only [RunTables.run?, KeyedTable.find_append, KeyedTable.find_cons]
      rfl
    simp only [happend]
    by_cases hid : id = run.runId
    · subst hid
      simp [h, flushedRow]
    · rw [if_neg hid, if_neg fun h => hid h.symm, Option.or_none]
  | some stored =>
    have hset : ∀ r, (setMutable run.toRunRow r).runId = r.runId := fun _ => rfl
    simp only [run?_updateRun db run.runId _ hset]
    by_cases hid : id = run.runId
    · subst hid
      simp [h, flushedRow]
    · rw [if_neg hid, if_neg hid]

/-! ### What each operation does -/

/-- What a successful flush did. -/
structure Flushed (sha256 : String → Sha256Hex) (json : AuditJson K) (db : RunTables K V) (s : StepArtifacts K V)
    (db' : RunTables K V) : Prop where
  run? : ∀ id, db'.run? id = if id = s.run.runId then some (flushedRow (db.run? id) s.run) else db.run? id
  decisions : db'.committeeDecisions =
    KeyedTable.insertAll RunTables.decisionKey db.committeeDecisions (s.decisions.map decisionRow)
  snapshots : db'.portfolioSnapshots = KeyedTable.insertAll PortfolioSnapshot.runId db.portfolioSnapshots s.portfolio.toList
  events : db'.killSwitchEvents =
    KeyedTable.insertAll RunTables.eventKey db.killSwitchEvents (s.killSwitch.map (dedupeRow sha256 json.event))
  commitments : ∀ c ∈ s.commitment, (db.commitment? c.runId = none ∧ db'.decisionCommitments = db.decisionCommitments ++ [c]) ∨
    ∃ stored, db.commitment? c.runId = some stored ∧ stored.sha256 = c.sha256 ∧
      db'.decisionCommitments = db.decisionCommitments
  uncommitted : s.commitment = none → db'.decisionCommitments = db.decisionCommitments
  anchors : db'.commitmentAnchors = db.commitmentAnchors
  orders : db'.orders = db.orders
  requests : db'.haltReferenceRequests = db.haltReferenceRequests

theorem insertCommitment_eq_ok {c : DecisionCommitment} (h : insertCommitment db c = .ok db') :
    (db.commitment? c.runId = none ∧ db' = { db with decisionCommitments := db.decisionCommitments ++ [c] }) ∨
    ∃ stored, db.commitment? c.runId = some stored ∧ stored.sha256 = c.sha256 ∧ db' = db := by
  unfold insertCommitment at h
  cases hc : db.commitment? c.runId with
  | none =>
    simp only [hc] at h
    cases h
    exact Or.inl ⟨rfl, rfl⟩
  | some stored =>
    simp only [hc] at h
    split at h
    · cases h
    · next hsha =>
      cases h
      exact Or.inr ⟨stored, rfl, not_not.mp hsha, rfl⟩

theorem run?_runs {db db' : RunTables K V} (h : db'.runs = db.runs) (id : UUID) : db'.run? id = db.run? id := by
  rw [RunTables.run?, h, RunTables.run?]

theorem commitment?_congr {db db' : RunTables K V} (h : db'.decisionCommitments = db.decisionCommitments) (id : UUID) :
    db'.commitment? id = db.commitment? id := by
  rw [RunTables.commitment?, h, RunTables.commitment?]

theorem upsertRun_frame (db : RunTables K V) (run : RunRecord K) :
    upsertRun db run = { db with runs := (upsertRun db run).runs } := by
  unfold upsertRun
  split <;> rfl

theorem insertAgentVerdicts_eq_ok {records : List (VerdictRecord K V)} (h : insertAgentVerdicts db records = .ok db') :
    db' = { db with agentVerdicts := KeyedTable.insertAll RunTables.verdictKey db.agentVerdicts records } := by
  obtain ⟨-, -, h⟩ := Except.bind_eq_ok.mp h
  cases h
  rfl

theorem insertCommitteeDecisions_eq_ok {records : List (CommitteeDecisionRecord K)}
    (h : insertCommitteeDecisions db records = .ok db') :
    db' = { db with
      committeeDecisions := KeyedTable.insertAll RunTables.decisionKey db.committeeDecisions (records.map decisionRow) } := by
  obtain ⟨-, -, h⟩ := Except.bind_eq_ok.mp h
  cases h
  rfl

theorem insertPortfolio_eq (db : RunTables K V) (p : Option (PortfolioSnapshot K)) :
    p.elim db (insertPortfolioSnapshot db) =
      { db with portfolioSnapshots := KeyedTable.insertAll PortfolioSnapshot.runId db.portfolioSnapshots p.toList } := by
  cases p <;> rfl

theorem commit_eq_ok {c : Option DecisionCommitment} (h : c.elim (.ok db) (insertCommitment db) = .ok db') :
    (∀ x ∈ c, (db.commitment? x.runId = none ∧ db'.decisionCommitments = db.decisionCommitments ++ [x]) ∨
      ∃ stored, db.commitment? x.runId = some stored ∧ stored.sha256 = x.sha256 ∧
        db'.decisionCommitments = db.decisionCommitments) ∧
    (c = none → db'.decisionCommitments = db.decisionCommitments) ∧
    db' = { db with decisionCommitments := db'.decisionCommitments } := by
  cases c with
  | none =>
    cases h
    exact ⟨nofun, fun _ => rfl, rfl⟩
  | some c =>
    rcases insertCommitment_eq_ok h with ⟨hnone, rfl⟩ | ⟨stored, hstored, hsha, rfl⟩
    · refine ⟨fun x hx => ?_, nofun, rfl⟩
      cases hx
      exact Or.inl ⟨hnone, rfl⟩
    · refine ⟨fun x hx => ?_, nofun, rfl⟩
      cases hx
      exact Or.inr ⟨stored, hstored, hsha, rfl⟩

theorem flushStep_eq_ok {s : StepArtifacts K V} (h : flushStep sha256 json db s = .ok db') :
    Flushed sha256 json db s db' := by
  obtain ⟨db₁, h₁, h⟩ := Except.bind_eq_ok.mp h
  obtain ⟨db₂, h₂, h⟩ := Except.bind_eq_ok.mp h
  obtain rfl := insertAgentVerdicts_eq_ok h₁
  obtain rfl := insertCommitteeDecisions_eq_ok h₂
  rw [insertPortfolio_eq] at h
  obtain ⟨hcommitted, huncommitted, hframe⟩ := commit_eq_ok h
  have hrun := run?_upsertRun db s.run
  rw [upsertRun_frame] at hcommitted huncommitted hframe
  rw [hframe]
  exact ⟨hrun, rfl, rfl, rfl, hcommitted, huncommitted, rfl, rfl, rfl⟩

theorem flushStep_verdicts {s : StepArtifacts K V} (h : flushStep sha256 json db s = .ok db') :
    db'.agentVerdicts = KeyedTable.insertAll RunTables.verdictKey db.agentVerdicts s.verdicts := by
  obtain ⟨db₁, h₁, h⟩ := Except.bind_eq_ok.mp h
  obtain ⟨db₂, h₂, h⟩ := Except.bind_eq_ok.mp h
  obtain rfl := insertAgentVerdicts_eq_ok h₁
  obtain rfl := insertCommitteeDecisions_eq_ok h₂
  rw [insertPortfolio_eq] at h
  obtain ⟨-, -, hframe⟩ := commit_eq_ok h
  rw [hframe, upsertRun_frame]
  rfl

theorem upsertAnchor_eq_ok {a : CommitmentAnchor} (h : upsertAnchor db a = .ok db') :
    db' = { db with commitmentAnchors := db'.commitmentAnchors } := by
  unfold upsertAnchor at h
  split at h
  · split at h
    · cases h
      rfl
    · cases h
  · split at h
    · cases h
      rfl
    · cases h

theorem advanceToAnchored_eq_ok {a : CommitmentAnchor} {moved : Bool} (h : advanceToAnchored db a = .ok (db', moved)) :
    ∃ db₁, upsertAnchor db a = .ok db₁ ∧
      db' = db₁.updateRun a.runId (fun r => decide (r.status = .committed)) fun r => { r with status := .anchored } := by
  unfold advanceToAnchored at h
  split at h
  · cases h
  · obtain ⟨db₁, h₁, h⟩ := Except.bind_eq_ok.mp h
    cases h
    exact ⟨db₁, h₁, rfl⟩

/-- What a successful halt record did. -/
structure HaltRecorded (sha256 : String → Sha256Hex) (json : AuditJson K) (db : RunTables K V) (e : KillSwitchEvent K)
    (db' : RunTables K V) : Prop where
  stored : (db.run? e.runId).isSome
  run? : ∀ id, db'.run? id = if id = e.runId then (db.run? id).map fun r =>
    if r.status ∈ haltable then
      { r with status := .partialRun, statusReason := some (haltReason e.trigger), endedAt := some e.triggeredAt }
    else r else db.run? id
  events : db'.killSwitchEvents =
    KeyedTable.insertAll RunTables.eventKey db.killSwitchEvents [dedupeRow sha256 json.event e]
  requests : db'.haltReferenceRequests =
    KeyedTable.insertAll RunTables.haltReferenceRequestsTable.key db.haltReferenceRequests [haltRequest e]
  agree : ∃ r, KeyedTable.find RunTables.haltReferenceRequestsTable.key db'.haltReferenceRequests (e.runId, e.trigger) = some r ∧
    RunTables.haltReferenceRequestsTable.Agree r (haltRequest e)
  frame : db' = { db with
    runs := db'.runs, killSwitchEvents := db'.killSwitchEvents, haltReferenceRequests := db'.haltReferenceRequests }

theorem recordHalt_eq_ok {e : KillSwitchEvent K} {moved : Bool} (h : recordHalt sha256 json db e = .ok (db', moved)) :
    HaltRecorded sha256 json db e db' := by
  obtain ⟨u, hstored, h⟩ := Except.bind_eq_ok.mp h
  obtain ⟨⟨requests, n⟩, hrequests, h⟩ := Except.bind_eq_ok.mp h
  obtain ⟨hagree, rfl, -⟩ := insertImmutable_eq_ok.mp hrequests
  cases h
  have hrun : (db.run? e.runId).isSome := by
    unfold runStored at hstored
    split at hstored
    · assumption
    · cases hstored
  refine ⟨hrun, fun id => ?_, rfl, rfl, hagree _ List.mem_cons_self, rfl⟩
  have hset : ∀ r : RunRow K, ({ r with
      status := .partialRun, statusReason := some (haltReason e.trigger), endedAt := some e.triggeredAt } : RunRow K).runId =
        r.runId := fun _ => rfl
  rw [run?_updateRun _ _ _ hset]
  simp only [decide_eq_true_eq]
  rfl

/-- What a successful reset did. -/
structure WasReset (db : RunTables K V) (runId : UUID) (db' : RunTables K V) : Prop where
  stored : (db.run? runId).isSome
  run? : ∀ id, db'.run? id = if id = runId then
    (db.run? id).map fun r => { r with status := .pending, statusReason := none, endedAt := none } else db.run? id
  uncommitted : ∀ c ∈ db.decisionCommitments, c.runId ≠ runId
  unanchored : ∀ a ∈ db.commitmentAnchors, a.runId ≠ runId
  unhalted : ∀ e ∈ db.killSwitchEvents, e.record.runId ≠ runId
  decisions : db'.committeeDecisions = db.committeeDecisions.filter fun d => d.runId ≠ runId
  snapshots : db'.portfolioSnapshots = db.portfolioSnapshots.filter fun p => p.runId ≠ runId
  commitments : db'.decisionCommitments = db.decisionCommitments
  anchors : db'.commitmentAnchors = db.commitmentAnchors
  events : db'.killSwitchEvents = db.killSwitchEvents
  requests : db'.haltReferenceRequests = db.haltReferenceRequests

theorem resetRun_eq_ok {actor reason : String} {now : AwareDatetime} (h : resetRun db runId actor reason now = .ok db') :
    WasReset db runId db' := by
  unfold resetRun at h
  cases hrun : db.run? runId with
  | none =>
    simp only [hrun] at h
    cases h
  | some row =>
    simp only [hrun] at h
    split_ifs at h with hc ha ho he
    cases h
    have hset : ∀ r : RunRow K, ({ r with status := .pending, statusReason := none, endedAt := none } : RunRow K).runId =
      r.runId := fun _ => rfl
    refine ⟨by rw [hrun]; rfl, fun id => ?_, ?_, ?_, ?_, rfl, rfl, rfl, rfl, rfl, rfl⟩
    · rw [run?_updateRun _ _ _ hset]
      rfl
    · simpa using hc
    · simpa using ha
    · simpa using he

end Sink
end AsymmetricCommittee
