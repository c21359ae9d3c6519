import AsymmetricCommittee.Store.Claims
import AsymmetricCommittee.Theorems.RunStatus

/-! Active runs of a slot. A claim creates a run only in a slot without an active one, and no conditional update
    makes a run active. A reset and a flush of an inactive run do: the slot stays with one active run exactly
    when no other run of it is active then. -/

namespace AsymmetricCommittee
namespace Sink
open Store

variable {K V : Type} [Field K] [LinearOrder K] {sha256 : String → Sha256Hex} {json : AuditJson K}
  {db db' : RunTables K V} {runId : UUID}

/-- The mode, decision time and configuration of a run. -/
def slot (r : RunRow K) : RunMode × Int × Sha256Hex := (r.mode, r.asOf.instant, r.configHash)

/-- Two active runs of one slot are one run. -/
def OneActive (db : RunTables K V) : Prop :=
  ∀ id r, db.run? id = some r → r.status ∈ active → ∀ id' r', db.run? id' = some r' → r'.status ∈ active →
    slot r = slot r' → id = id'

/-- No other run of the slot is active. -/
def SlotFree (db : RunTables K V) (runId : UUID) (s : RunMode × Int × Sha256Hex) : Prop :=
  ∀ id r, db.run? id = some r → r.status ∈ active → slot r = s → id = runId

/-- The run that a write is about to make active, with its slot, when it is not active yet. -/
def activates (db : RunTables K V) : Op K V → Option (UUID × RunMode × Int × Sha256Hex)
  | .flushStep s =>
    match db.run? s.run.runId with
    | none => if s.run.status ∈ active then some (s.run.runId, slot s.run.toRunRow) else none
    | some stored =>
      if stored.status ∉ active ∧ upsertAllowed stored s.run.status ∧ s.run.status ∈ active then
        some (s.run.runId, slot stored)
      else none
  | .resetRun runId _ _ _ =>
    match db.run? runId with
    | none => none
    | some stored => if stored.status ∉ active then some (runId, slot stored) else none
  | _ => none

/-- A write that makes a run active finds no other active run in the slot. -/
def FindsFree (db : RunTables K V) (op : Op K V) : Prop :=
  ∀ id s, activates db op = some (id, s) → SlotFree db id s

/-! ### Writes of one run -/

/-- A write that changes one run, keeps its slot and makes it active only when the slot is free. -/
theorem OneActive.write {f : RunRow K → Option (RunRow K)} (h : OneActive db)
    (hrun : ∀ id, db'.run? id = if id = runId then (db.run? id).bind f else db.run? id)
    (hf : ∀ r r', db.run? runId = some r → f r = some r' → slot r' = slot r ∧
      (r'.status ∈ active → r.status ∈ active ∨ SlotFree db runId (slot r))) : OneActive db' := by
  -- an active run of the new state was active in its slot, or is the written one in a slot that was free
  have hold : ∀ id r, db'.run? id = some r → r.status ∈ active →
      (∃ r₀, db.run? id = some r₀ ∧ slot r₀ = slot r ∧ r₀.status ∈ active) ∨
      (id = runId ∧ SlotFree db runId (slot r)) := by
    intro id r hr hactive
    rw [hrun] at hr
    split at hr
    · next hid =>
      subst hid
      obtain ⟨r₀, hr₀, hfr⟩ := Option.bind_eq_some_iff.mp hr
      obtain ⟨hslot, hact⟩ := hf r₀ r hr₀ hfr
      rcases hact hactive with hact | hfree
      · exact Or.inl ⟨r₀, hr₀, hslot.symm, hact⟩
      · exact Or.inr ⟨rfl, hslot ▸ hfree⟩
    · exact Or.inl ⟨r, hr, rfl, hactive⟩
  intro id r hr hactive id' r' hr' hactive' hslot
  rcases hold id r hr hactive with ⟨r₀, hr₀, hs₀, ha₀⟩ | ⟨rfl, hfree⟩
  · rcases hold id' r' hr' hactive' with ⟨r₁, hr₁, hs₁, ha₁⟩ | ⟨rfl, hfree⟩
    · exact h id r₀ hr₀ ha₀ id' r₁ hr₁ ha₁ (hs₀.trans (hslot.trans hs₁.symm))
    · exact hfree id r₀ hr₀ ha₀ (hs₀.trans hslot)
  · rcases hold id' r' hr' hactive' with ⟨r₁, hr₁, hs₁, ha₁⟩ | ⟨rfl, -⟩
    · exact (hfree id' r₁ hr₁ ha₁ (hs₁.trans hslot.symm)).symm
    · rfl

/-- A new run in a slot that is free. -/
theorem OneActive.insert {new : RunRow K} (h : OneActive db) (hnone : db.run? runId = none)
    (hrun : ∀ id, db'.run? id = if id = runId then some new else db.run? id)
    (hfree : new.status ∈ active → SlotFree db runId (slot new)) : OneActive db' := by
  have hold : ∀ id r, db'.run? id = some r → r.status ∈ active →
      db.run? id = some r ∨ (id = runId ∧ r = new) := by
    intro id r hr _
    rw [hrun] at hr
    split at hr
    · next hid =>
      cases hr
      exact Or.inr ⟨hid, rfl⟩
    · exact Or.inl hr
  intro id r hr hactive id' r' hr' hactive' hslot
  rcases hold id r hr hactive with hr | ⟨rfl, rfl⟩
  · rcases hold id' r' hr' hactive' with hr' | ⟨rfl, rfl⟩
    · exact h id r hr hactive id' r' hr' hactive' hslot
    · exact hfree hactive' id r hr hactive hslot
  · rcases hold id' r' hr' hactive' with hr' | ⟨rfl, rfl⟩
    · exact (hfree hactive id' r' hr' hactive' hslot.symm).symm
    · rfl

theorem OneActive.congr (h : OneActive db) (hrun : ∀ id, db'.run? id = db.run? id) : OneActive db' := by
  intro id r hr hactive id' r' hr' hactive' hslot
  rw [hrun] at hr hr'
  exact h id r hr hactive id' r' hr' hactive' hslot

/-! ### One operation -/

/-- A conditional update to a status leaves the slots with one active run: it touches active runs only. -/
theorem OneActive.update {p : RunRow K → Bool} {set : RunRow K → RunRow K} (h : OneActive db)
    (hrun : ∀ id, db'.run? id = if id = runId then (db.run? id).map fun r => if p r then set r else r else db.run? id)
    (hslot : ∀ r, slot (set r) = slot r) (hp : ∀ r, p r = true → r.status ∈ active) : OneActive db' := by
  have hbind : ∀ id, db'.run? id = if id = runId then (db.run? id).bind fun r => some (if p r then set r else r)
      else db.run? id := by
    intro id
    rw [hrun, Option.map_eq_bind]
    rfl
  refine h.write hbind fun r r' _ hr' => ?_
  cases hr'
  split
  · next hpr => exact ⟨hslot r, fun _ => Or.inl (hp r hpr)⟩
  · exact ⟨rfl, fun hactive => Or.inl hactive⟩

theorem OneActive.flush {s : StepArtifacts K V} (h : OneActive db) (hF : Flushed sha256 json db s db')
    (hfree : FindsFree db (.flushStep s)) : OneActive db' := by
  cases hstored : db.run? s.run.runId with
  | none =>
    have hrun : ∀ id, db'.run? id = if id = s.run.runId then some s.run.toRunRow else db.run? id := by
      intro id
      rw [hF.run?]
      by_cases hid : id = s.run.runId
      · rw [if_pos hid, if_pos hid, hid, hstored]
        rfl
      · rw [if_neg hid, if_neg hid]
    refine h.insert hstored hrun fun hactive => ?_
    refine hfree s.run.runId _ ?_
    simp only [activates, hstored]
    exact if_pos hactive
  | some stored =>
    have hrun : ∀ id, db'.run? id = if id = s.run.runId then (db.run? id).bind fun r =>
        some (flushedRow (some r) s.run) else db.run? id := by
      intro id
      rw [hF.run?]
      by_cases hid : id = s.run.runId
      · rw [if_pos hid, if_pos hid, hid, hstored]
        rfl
      · rw [if_neg hid, if_neg hid]
    refine h.write hrun fun r r' hr hr' => ?_
    cases hr'
    rw [hstored] at hr
    cases hr
    simp only [flushedRow]
    split
    · next hallowed =>
      refine ⟨rfl, fun hactive => ?_⟩
      by_cases hwas : stored.status ∈ active
      · exact Or.inl hwas
      · refine Or.inr (hfree s.run.runId _ ?_)
        simp only [activates, hstored]
        exact if_pos ⟨hwas, hallowed, hactive⟩
    · exact ⟨rfl, fun hactive => Or.inl hactive⟩

/-- A write that makes no run active beside another keeps one active run in each slot. -/
theorem OneActive.step {op : Op K V} (h : OneActive db) (hfree : FindsFree db op) :
    OneActive (step sha256 json db op) := by
  unfold Sink.step
  cases hp : perform sha256 json db op with
  | error e => exact h
  | ok db' =>
    cases op with
    | flushStep s => exact h.flush (flushStep_eq_ok hp) hfree
    | recordAnchor a =>
      refine h.congr fun id => ?_
      rw [upsertAnchor_eq_ok hp]
      rfl
    | markAnchored a =>
      obtain ⟨⟨db₂, moved⟩, hx, rfl⟩ := Except.map_eq_ok.mp hp
      obtain ⟨db₁, h₁, rfl⟩ := advanceToAnchored_eq_ok hx
      have h₁' : OneActive db₁ := h.congr fun id => by
        rw [upsertAnchor_eq_ok h₁]
        rfl
      refine h₁'.update (run?_updateRun db₁ a.runId _ fun _ => rfl) (fun _ => rfl) fun r hr => ?_
      rw [of_decide_eq_true hr]
      decide
    | markExecuted id endedAt =>
      cases hp
      refine h.update (run?_updateRun db id _ fun _ => rfl) (fun _ => rfl) fun r hr => ?_
      rw [of_decide_eq_true hr]
      decide
    | recordHalt e =>
      obtain ⟨⟨db₂, moved⟩, hx, rfl⟩ := Except.map_eq_ok.mp hp
      have hrun : ∀ id, db₂.run? id = if id = e.runId then (db.run? id).map fun r => if decide (r.status ∈ haltable) then
          { r with status := .partialRun, statusReason := some (haltReason e.trigger), endedAt := some e.triggeredAt }
        else r else db.run? id := by
        simpa only [decide_eq_true_eq] using (recordHalt_eq_ok hx).run?
      refine h.update hrun (fun _ => rfl) fun r hr => ?_
      have hsub : ∀ s : RunStatus, s ∈ haltable → s ∈ active := fun s => by cases s <;> decide
      exact hsub r.status (of_decide_eq_true hr)
    | resetRun id actor reason now =>
      have hR := resetRun_eq_ok hp
      have hrun : ∀ k, db'.run? k = if k = id then (db.run? k).bind fun r =>
          some { r with status := .pending, statusReason := none, endedAt := none } else db.run? k := by
        intro k
        rw [hR.run?, Option.map_eq_bind]
        rfl
      refine h.write hrun fun r r' hr hr' => ?_
      cases hr'
      refine ⟨rfl, fun _ => ?_⟩
      by_cases hwas : r.status ∈ active
      · exact Or.inl hwas
      · refine Or.inr (hfree id _ ?_)
        simp only [activates, hr]
        exact if_pos hwas

/-! ### Claims -/

/-- A claim that creates a run found none of its slot active. -/
theorem claimRun_eq_ok {request : ClaimRequest} {run : RunRecord K} {created : Bool}
    (h : claimRun db request = .ok (db', run, created)) :
    db' = db ∨ (db' = { db with runs := KeyedTable.insertNew RunRow.runId db.runs request.record.toRunRow } ∧
      ∀ r ∈ db.runs, slot r = slot (request.record (K := K)).toRunRow → r.status ∉ active) := by
  obtain ⟨runs, hruns, h⟩ := Except.bind_eq_ok.mp h
  cases hfind : runs.find? fun r => r.status ∈ active with
  | some r =>
    simp only [hfind] at h
    cases h
    exact Or.inl rfl
  | none =>
    simp only [hfind] at h
    split at h
    · cases h
    · cases h
      refine Or.inr ⟨rfl, fun r hr hslot hactive => ?_⟩
      have hmem : r ∈ slotRows db request := by
        obtain ⟨hmode, hrest⟩ := Prod.mk.inj hslot
        obtain ⟨hasOf, hconfig⟩ := Prod.mk.inj hrest
        rw [slotRows, (List.perm_insertionSort _ _).mem_iff]
        exact List.mem_filter.mpr ⟨hr, decide_eq_true ⟨hmode, hasOf, hconfig⟩⟩
      obtain ⟨run, hrun, hrecord⟩ := Forall₂.exists_of_mem_left (Except.mapM_eq_ok.mp hruns) hmem
      have hrow : run.toRunRow = r := by
        unfold runRecord at hrecord
        split at hrecord
        · cases hrecord
          rfl
        · cases hrecord
      have hno := List.find?_eq_none.mp hfind run hrun
      rw [hrow] at hno
      exact hno (decide_eq_true hactive)

theorem OneActive.claim {request : ClaimRequest} {run : RunRecord K} {created : Bool} (h : OneActive db)
    (hclaim : claimRun db request = .ok (db', run, created)) : OneActive db' := by
  rcases claimRun_eq_ok hclaim with rfl | ⟨rfl, hnone⟩
  · exact h
  · have hrun : ∀ id, RunTables.run? { db with
        runs := KeyedTable.insertNew RunRow.runId db.runs (request.record (K := K)).toRunRow } id =
        (db.run? id).or (if request.runId = id then some (request.record (K := K)).toRunRow else none) := by
      intro id
      simp only [RunTables.run?, KeyedTable.find_insertNew, KeyedTable.find_cons]
      rfl
    cases hstored : db.run? request.runId with
    | some r =>
      refine h.congr fun id => ?_
      rw [hrun]
      by_cases hid : request.runId = id
      · rw [← hid, hstored, Option.some_or]
      · rw [if_neg hid, Option.or_none]
    | none =>
      have hinsert : ∀ id, RunTables.run? { db with
          runs := KeyedTable.insertNew RunRow.runId db.runs (request.record (K := K)).toRunRow } id =
          if id = request.runId then some (request.record (K := K)).toRunRow else db.run? id := by
        intro id
        rw [hrun]
        by_cases hid : request.runId = id
        · rw [if_pos hid, if_pos hid.symm, ← hid, hstored, Option.none_or]
        · rw [if_neg hid, if_neg fun h => hid h.symm, Option.or_none]
      refine h.insert hstored hinsert fun _ id r hr hactive hslot => ?_
      exact absurd hactive (hnone r (KeyedTable.find_some hr).1 hslot)

/-! ### The condition is exact -/

/-- The run that a successful write makes active is active in its slot afterwards, and the others are as before. -/
theorem activated {op : Op K V} {s : RunMode × Int × Sha256Hex} (hp : perform sha256 json db op = .ok db')
    (h : activates db op = some (runId, s)) :
    (∃ r, db'.run? runId = some r ∧ r.status ∈ active ∧ slot r = s) ∧
      ∀ id, id ≠ runId → db'.run? id = db.run? id := by
  cases op with
  | flushStep step =>
    have hF := flushStep_eq_ok hp
    have hrun := hF.run?
    cases hstored : db.run? step.run.runId with
    | none =>
      simp only [activates, hstored] at h
      split at h
      · next hactive =>
        cases h
        refine ⟨⟨step.run.toRunRow, ?_, hactive, rfl⟩, fun id hid => by rw [hrun, if_neg hid]⟩
        rw [hrun, if_pos rfl, hstored]
        rfl
      · cases h
    | some stored =>
      simp only [activates, hstored] at h
      split at h
      · next hcond =>
        cases h
        refine ⟨⟨setMutable step.run.toRunRow stored, ?_, hcond.2.2, rfl⟩, fun id hid => by rw [hrun, if_neg hid]⟩
        rw [hrun, if_pos rfl, hstored, flushedRow]
        exact congrArg some (if_pos hcond.2.1)
      · cases h
  | resetRun id actor reason now =>
    have hrun := (resetRun_eq_ok hp).run?
    cases hstored : db.run? id with
    | none =>
      simp only [activates, hstored] at h
      cases h
    | some stored =>
      simp only [activates, hstored] at h
      split at h
      · cases h
        refine ⟨⟨{ stored with status := .pending, statusReason := none, endedAt := none }, ?_, List.mem_cons_self, rfl⟩,
          fun id hid => by rw [hrun, if_neg hid]⟩
        rw [hrun, if_pos rfl, hstored]
        rfl
      · cases h
  | recordAnchor a => cases h
  | markAnchored a => cases h
  | markExecuted id endedAt => cases h
  | recordHalt e => cases h

/-- A successful write keeps one active run in each slot exactly when it makes none active beside another. -/
theorem step_oneActive_iff {op : Op K V} (hp : perform sha256 json db op = .ok db') (h : OneActive db) :
    OneActive db' ↔ FindsFree db op := by
  constructor
  · intro h' runId s hact id r hr hactive hslot
    obtain ⟨⟨new, hnew, hnewActive, hnewSlot⟩, hothers⟩ := activated hp hact
    by_contra hid
    exact hid (h' id r ((hothers id hid).trans hr) hactive runId new hnew hnewActive (hslot.trans hnewSlot.symm))
  · intro hfree
    have hstep : OneActive (Sink.step sha256 json db op) := h.step hfree
    rw [Sink.step, hp] at hstep
    exact hstep

/-! ### Sequences of operations -/

theorem workerRun_concat (db : RunTables K V) (ops : List (WorkerOp K V)) (op : WorkerOp K V) :
    workerRun sha256 json db (ops ++ [op]) = workerStep sha256 json (workerRun sha256 json db ops) op := by
  rw [workerRun, List.foldl_append]
  rfl

/-- Every write of the sequence that makes a run active finds the slot free. -/
def ActivatesFree (sha256 : String → Sha256Hex) (json : AuditJson K) (db : RunTables K V) (ops : List (WorkerOp K V)) :
    Prop :=
  ∀ before op after, ops = before ++ .write op :: after → FindsFree (workerRun sha256 json db before) op

/-- In every state that a sequence of claims and writes reaches, when each write that makes a run active finds no
    other active run of its slot, each slot has at most one active run. -/
theorem workerRun_oneActive {ops : List (WorkerOp K V)} (h : OneActive db)
    (hfree : ActivatesFree sha256 json db ops) {before after : List (WorkerOp K V)} (hops : ops = before ++ after) :
    OneActive (workerRun sha256 json db before) := by
  subst hops
  induction before using List.reverseRecOn generalizing after with
  | nil => exact h
  | append_singleton before op ih =>
    rw [List.append_assoc, List.singleton_append] at hfree
    have hbefore := ih hfree
    rw [workerRun_concat]
    cases op with
    | claim request =>
      cases hclaim : claimRun (workerRun sha256 json db before) request with
      | error e =>
        simp only [workerStep, hclaim]
        exact hbefore
      | ok x =>
        obtain ⟨db', run, created⟩ := x
        simp only [workerStep, hclaim]
        exact hbefore.claim hclaim
    | write op => exact hbefore.step (hfree before op after rfl)

/-! ### A reset run -/

section Reset

/-- A worker claims the slot of run 1 under a run id. -/
def claimSlot (runId : UUID) : WorkerOp ℚ Unit := .claim ⟨.live, ⟨0, 0⟩, zeroHex, runId, ⟨0, 0⟩, false⟩

/-- Run 1 is claimed and fails, run 2 is claimed in its place, and run 1 is reset. -/
def resetOfFailed : List (WorkerOp ℚ Unit) :=
  [claimSlot ⟨1⟩, .write (.flushStep failedStep), claimSlot ⟨2⟩, .write (.resetRun ⟨1⟩ "operator" "retry" ⟨3, 0⟩)]

/-- A run that failed comes back beside the one that took its slot. -/
theorem reset_two_active : ¬OneActive (workerRun (fun _ => zeroHex) noJson noTables resetOfFailed) := by
  intro h
  have h₁ : ∃ r, (workerRun (fun _ => zeroHex) noJson noTables resetOfFailed).run? ⟨1⟩ = some r ∧
      r.status ∈ active ∧ slot r = (.live, 0, zeroHex) := ⟨_, rfl, by decide, rfl⟩
  have h₂ : ∃ r, (workerRun (fun _ => zeroHex) noJson noTables resetOfFailed).run? ⟨2⟩ = some r ∧
      r.status ∈ active ∧ slot r = (.live, 0, zeroHex) := ⟨_, rfl, by decide, rfl⟩
  obtain ⟨r₁, hr₁, ha₁, hs₁⟩ := h₁
  obtain ⟨r₂, hr₂, ha₂, hs₂⟩ := h₂
  exact absurd (h _ _ hr₁ ha₁ _ _ hr₂ ha₂ (hs₁.trans hs₂.symm)) (by decide)

/-- A slot is claimed, its run fails, and it is claimed again. -/
theorem workerRun_oneActive_reclaimed :
    OneActive (workerRun (fun _ => zeroHex) noJson noTables
      [claimSlot ⟨1⟩, .write (.flushStep failedStep), claimSlot ⟨2⟩]) := by
  have hnone : OneActive noTables := fun id r hr => nomatch hr
  have hfree : ActivatesFree (fun _ => zeroHex) noJson noTables
      [claimSlot ⟨1⟩, .write (.flushStep failedStep), claimSlot ⟨2⟩] := by
    intro before op after hops
    match before, hops with
    | [], hops => cases hops
    | [_], hops =>
      cases hops
      have hnone : activates (workerRun (fun _ => zeroHex) noJson noTables [claimSlot ⟨1⟩]) (.flushStep failedStep) = none :=
        rfl
      rintro id s hact
      rw [hnone] at hact
      cases hact
    | [_, _], hops => cases hops
    | [_, _, _], hops => cases hops
    | _ :: _ :: _ :: _ :: before, hops => simp at hops
  exact workerRun_oneActive hnone hfree (List.append_nil _).symm

end Reset

end Sink
end AsymmetricCommittee
