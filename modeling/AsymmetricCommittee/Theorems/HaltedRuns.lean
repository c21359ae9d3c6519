import AsymmetricCommittee.Theorems.HaltRecords

/-! Halted runs. A halt of a run that is COMMITTED, ANCHORED or EXECUTED moves it to PARTIAL for good: no flush,
    advance, later halt or reset touches it again. A halt of any other run is kept as evidence and moves nothing,
    so a run halted before it committed can still commit. -/

namespace AsymmetricCommittee
namespace Sink
open Store

variable {K V : Type} [Field K] [LinearOrder K] {sha256 : String → Sha256Hex} {json : AuditJson K}
  {db db' : RunTables K V} {runId : UUID} {trigger : KillTrigger} {e : KillSwitchEvent K}

/-- The run is PARTIAL by a halt of the trigger, and has an event to show for it. -/
structure HaltedBy (db : RunTables K V) (runId : UUID) (trigger : KillTrigger) : Prop where
  row : ∃ r, db.run? runId = some r ∧ r.status = .partialRun ∧ r.statusReason = some (haltReason trigger)
  event : ∃ row ∈ db.killSwitchEvents, row.record.runId = runId

theorem HaltedBy.congr (h : HaltedBy db runId trigger) (hrun : db'.run? runId = db.run? runId)
    (hevents : db.killSwitchEvents ⊆ db'.killSwitchEvents) : HaltedBy db' runId trigger := by
  obtain ⟨row, hrow, hid⟩ := h.event
  exact ⟨hrun ▸ h.row, row, hevents hrow, hid⟩

/-- A conditional update of statuses other than PARTIAL passes a halted run by. -/
theorem HaltedBy.update {id : UUID} {p : RunRow K → Bool} {set : RunRow K → RunRow K} (h : HaltedBy db runId trigger)
    (hrun : ∀ k, db'.run? k = if k = id then (db.run? k).map fun r => if p r then set r else r else db.run? k)
    (hevents : db.killSwitchEvents ⊆ db'.killSwitchEvents) (hp : ∀ r, r.status = .partialRun → p r = false) :
    HaltedBy db' runId trigger := by
  refine h.congr ?_ hevents
  obtain ⟨r, hr, hstatus, -⟩ := h.row
  rw [hrun, hr]
  split
  · simp [hp r hstatus]
  · rfl

/-- The upsert does not overwrite a halted run. -/
theorem upsertAllowed_halted {r : RunRow K} (hstatus : r.status = .partialRun)
    (hreason : r.statusReason = some (haltReason trigger)) (presented : RunStatus) : upsertAllowed r presented = false := by
  simp [upsertAllowed, hstatus, hreason, isHaltReason_haltReason]

/-- Every store operation leaves a halted run as it is. -/
theorem HaltedBy.step {op : Op K V} (h : HaltedBy db runId trigger) : HaltedBy (step sha256 json db op) runId trigger := by
  unfold Sink.step
  cases hp : perform sha256 json db op with
  | error e => exact h
  | ok db' =>
    cases op with
    | flushStep s =>
      have hF := flushStep_eq_ok hp
      refine h.congr ?_ fun row hrow => hF.events ▸ KeyedTable.mem_insertAll_of_mem hrow
      obtain ⟨r, hr, hstatus, hreason⟩ := h.row
      rw [hF.run?, hr, flushedRow, upsertAllowed_halted hstatus hreason]
      split <;> rfl
    | recordAnchor a =>
      have hframe := upsertAnchor_eq_ok hp
      rw [hframe]
      exact h.congr rfl fun _ hrow => hrow
    | markAnchored a =>
      obtain ⟨⟨db₂, moved⟩, hx, rfl⟩ := Except.map_eq_ok.mp hp
      obtain ⟨db₁, h₁, rfl⟩ := advanceToAnchored_eq_ok hx
      have hanchored : HaltedBy db₁ runId trigger := by
        rw [upsertAnchor_eq_ok h₁]
        exact h.congr rfl fun _ hrow => hrow
      refine hanchored.update (run?_updateRun db₁ a.runId _ fun _ => rfl) (fun _ hrow => hrow) fun r hr => ?_
      rw [hr]
      rfl
    | markExecuted id endedAt =>
      cases hp
      refine h.update (run?_updateRun db id _ fun _ => rfl) (fun _ hrow => hrow) fun r hr => ?_
      rw [hr]
      rfl
    | recordHalt e =>
      obtain ⟨⟨db₂, moved⟩, hx, rfl⟩ := Except.map_eq_ok.mp hp
      have hH := recordHalt_eq_ok hx
      have hrun : ∀ id, db₂.run? id = if id = e.runId then (db.run? id).map fun r => if decide (r.status ∈ haltable) then
          { r with status := .partialRun, statusReason := some (haltReason e.trigger), endedAt := some e.triggeredAt }
        else r else db.run? id := by
        simpa only [decide_eq_true_eq] using hH.run?
      refine h.update hrun (fun row hrow => hH.events ▸ KeyedTable.mem_insertAll_of_mem hrow) fun r hr => ?_
      rw [hr]
      rfl
    | resetRun id actor reason now =>
      have hR := resetRun_eq_ok hp
      obtain ⟨row, hrow, hid⟩ := h.event
      -- the event refuses the reset of its own run
      have hother : runId ≠ id := fun heq => hR.unhalted row hrow (hid.trans heq)
      exact h.congr ((hR.run? runId).trans (if_neg hother)) (hR.events ▸ fun _ hx => hx)

theorem HaltedBy.run (h : HaltedBy db runId trigger) (ops : List (Op K V)) :
    HaltedBy (run sha256 json db ops) runId trigger := by
  induction ops using List.reverseRecOn with
  | nil => exact h
  | append_singleton ops op ih =>
    rw [run_concat]
    exact ih.step

/-- A recorded halt of a committed, anchored or executed run halts it. -/
theorem HaltRecorded.haltedBy (hH : HaltRecorded sha256 json db e db') {r : RunRow K} (hr : db.run? e.runId = some r)
    (hstatus : r.status ∈ haltable) : HaltedBy db' e.runId e.trigger := by
  refine ⟨⟨{ r with
    status := .partialRun, statusReason := some (haltReason e.trigger), endedAt := some e.triggeredAt }, ?_, rfl, rfl⟩, ?_⟩
  · rw [hH.run?, if_pos rfl, hr, Option.map_some, if_pos hstatus]
  · have hfind : (KeyedTable.find RunTables.eventKey db'.killSwitchEvents
        (RunTables.eventKey (dedupeRow sha256 json.event e))).isSome := by
      rw [hH.events, KeyedTable.find_insertAll, Option.isSome_or, KeyedTable.find_isSome List.mem_cons_self, Bool.or_true]
    obtain ⟨row, hrow⟩ := Option.isSome_iff_exists.mp hfind
    obtain ⟨hmem, hkey⟩ := KeyedTable.find_some hrow
    exact ⟨row, hmem, congrArg Prod.fst hkey⟩

/-- A halt recorded while its run is committed, anchored or executed leaves the run PARTIAL with the halt's reason
    through every later sequence of operations; recorded in any other status it moves nothing. -/
theorem halted_stays {before after : List (Op K V)} {moved : Bool} {r : RunRow K}
    (hrecord : recordHalt sha256 json (run sha256 json db before) e = .ok (db', moved))
    (hr : (run sha256 json db before).run? e.runId = some r) :
    (r.status ∈ haltable → ∃ r', (run sha256 json db (before ++ .recordHalt e :: after)).run? e.runId = some r' ∧
      r'.status = .partialRun ∧ r'.statusReason = some (haltReason e.trigger)) ∧
    (r.status ∉ haltable → db'.run? e.runId = some r) := by
  have hH := recordHalt_eq_ok hrecord
  refine ⟨fun hstatus => ?_, fun hstatus => ?_⟩
  · have hrun : run sha256 json db (before ++ .recordHalt e :: after) = run sha256 json db' after := by
      have hstep : step sha256 json (run sha256 json db before) (.recordHalt e) = db' := step_recordHalt hrecord
      rw [run, List.foldl_append, List.foldl_cons, show List.foldl (step sha256 json) db before = run sha256 json db before from rfl,
        hstep, run]
    rw [hrun]
    exact ((hH.haltedBy hr hstatus).run after).row
  · rw [hH.run?, if_pos rfl, hr, Option.map_some, if_neg hstatus]

/-! ### A halt before the commitment -/

section Early

/-- Run 1 with its agents done, and nothing committed. -/
def agentsStep : StepArtifacts ℚ Unit := stepAt .agentsOk none none_committed

/-- A run halted before it commits is committed by its next flush. -/
theorem early_halt_commits :
    (run haltDigest haltJson noTables [.flushStep agentsStep, .recordHalt (manualHalt 1 true)]).killSwitchEvents =
        [⟨manualHalt 1 true, onesHex⟩] ∧
      (run haltDigest haltJson noTables
        [.flushStep agentsStep, .recordHalt (manualHalt 1 true), .flushStep committedStep]).status? ⟨1⟩ = some .committed :=
  ⟨rfl, rfl⟩

/-- A committed run is halted, and a late flush of its commitment changes nothing. -/
theorem halted_stays_flushed : ∃ r',
    (run haltDigest haltJson noTables
      [.flushStep committedStep, .recordHalt (manualHalt 1 true), .flushStep committedStep]).run? ⟨1⟩ = some r' ∧
      r'.status = .partialRun ∧ r'.statusReason = some (haltReason .manual) := by
  have hrecord : ∃ db' moved, recordHalt haltDigest haltJson (run haltDigest haltJson noTables [.flushStep committedStep])
      (manualHalt 1 true) = .ok (db', moved) := ⟨_, _, rfl⟩
  obtain ⟨db', moved, hrecord⟩ := hrecord
  have hr : (run haltDigest haltJson noTables [.flushStep committedStep]).run? (manualHalt 1 true).runId =
    some committedStep.run.toRunRow := rfl
  exact (@halted_stays _ _ _ _ _ _ _ _ _ _ [.flushStep committedStep] _ _ hrecord hr).1 (by decide)

end Early

end Sink
end AsymmetricCommittee
