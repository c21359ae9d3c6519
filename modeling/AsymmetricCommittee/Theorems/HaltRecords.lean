import AsymmetricCommittee.Theorems.RunStatus

/-! When halts are recorded. The event row is keyed by the event's digest, but the reference request that the
    same transaction writes is keyed by run and trigger and carries the halt's time: a second halt of one
    trigger is recorded exactly when it has the time of the first. -/

namespace AsymmetricCommittee
namespace Sink
open Store

variable {K V : Type} [Field K] [LinearOrder K] {sha256 : String → Sha256Hex} {json : AuditJson K}
  {db db' : RunTables K V} {runId : UUID} {e : KillSwitchEvent K} {events : List (KillSwitchEvent K)}

/-- The store holds the event. -/
def Holds (db : RunTables K V) (e : KillSwitchEvent K) : Prop := ∃ row ∈ db.killSwitchEvents, row.record = e

/-- The tables after a sequence of halts, each recorded in its own transaction. -/
def runHalts (sha256 : String → Sha256Hex) (json : AuditJson K) (db : RunTables K V)
    (events : List (KillSwitchEvent K)) : RunTables K V := run sha256 json db (events.map .recordHalt)

/-- Each halt of a sequence is recorded, and none is lost afterwards. -/
def AllRecorded (sha256 : String → Sha256Hex) (json : AuditJson K) (db : RunTables K V)
    (events : List (KillSwitchEvent K)) : Prop :=
  ∀ before e after, events = before ++ e :: after →
    (∃ db' moved, recordHalt sha256 json (runHalts sha256 json db before) e = .ok (db', moved) ∧ Holds db' e) ∧
    Holds (runHalts sha256 json db events) e

/-- The audit digests tell these events apart. -/
def EventsDistinct (sha256 : String → Sha256Hex) (json : AuditJson K) (events : List (KillSwitchEvent K)) : Prop :=
  ∀ e ∈ events, ∀ e' ∈ events, sha256 (json.event e) = sha256 (json.event e') → e = e'

/-- Nothing of a run's halts is stored yet. -/
structure Unhalted (db : RunTables K V) (runId : UUID) : Prop where
  events : ∀ row ∈ db.killSwitchEvents, row.record.runId ≠ runId
  requests : ∀ r ∈ db.haltReferenceRequests, r.runId ≠ runId

/-! ### One record -/

/-- The reference request of a run and trigger. -/
def request? (db : RunTables K V) (runId : UUID) (trigger : KillTrigger) : Option HaltReferenceRequest :=
  KeyedTable.find RunTables.haltReferenceRequestsTable.key db.haltReferenceRequests (runId, trigger)

omit [Field K] [LinearOrder K] in
theorem agree_haltRequest {r : HaltReferenceRequest} (h : RunTables.haltReferenceRequestsTable.Agree r (haltRequest e)) :
    r.tau.instant = e.triggeredAt.instant := of_decide_eq_true (h _ List.mem_cons_self)

omit [Field K] [LinearOrder K] in
theorem agree_haltRequests {e e' : KillSwitchEvent K} (h : e'.triggeredAt.instant = e.triggeredAt.instant) :
    RunTables.haltReferenceRequestsTable.Agree (haltRequest e') (haltRequest e) := by
  have hstatus : (haltRequest e').status = (haltRequest e).status := rfl
  have hversion : (haltRequest e').sourceVersion = (haltRequest e).sourceVersion := rfl
  intro c hc
  simp only [RunTables.haltReferenceRequestsTable, List.mem_cons, List.not_mem_nil, or_false] at hc
  rcases hc with rfl | rfl | rfl | rfl
  · exact decide_eq_true h
  · exact decide_eq_true hstatus
  · exact decide_eq_true h
  · exact decide_eq_true hversion

/-- A halt is recorded when its run is stored and no request contradicts it. -/
theorem recordHalt_ok (hrun : (db.run? e.runId).isSome)
    (hagree : ∀ r, request? db e.runId e.trigger = some r → RunTables.haltReferenceRequestsTable.Agree r (haltRequest e)) :
    ∃ db' moved, recordHalt sha256 json db e = .ok (db', moved) := by
  have hchecks : ∀ r ∈ [haltRequest e], ∃ x, KeyedTable.find RunTables.haltReferenceRequestsTable.key
      (KeyedTable.insertAll RunTables.haltReferenceRequestsTable.key db.haltReferenceRequests [haltRequest e])
      (RunTables.haltReferenceRequestsTable.key r) = some x ∧ RunTables.haltReferenceRequestsTable.Agree x r := by
    intro r hr
    rw [List.mem_singleton.mp hr, KeyedTable.find_insertAll]
    cases hfind : request? db e.runId e.trigger with
    | some x =>
      have hfind' : KeyedTable.find RunTables.haltReferenceRequestsTable.key db.haltReferenceRequests
        (RunTables.haltReferenceRequestsTable.key (haltRequest e)) = some x := hfind
      exact ⟨x, by rw [hfind', Option.some_or], hagree x hfind⟩
    | none =>
      have hfind' : KeyedTable.find RunTables.haltReferenceRequestsTable.key db.haltReferenceRequests
        (RunTables.haltReferenceRequestsTable.key (haltRequest e)) = none := hfind
      refine ⟨haltRequest e, ?_, agree_haltRequests rfl⟩
      rw [hfind', Option.none_or, KeyedTable.find_cons, if_pos rfl]
  have hinsert := insertImmutable_eq_ok.mpr ⟨hchecks, rfl, rfl⟩
  exact ⟨_, _, Except.bind_eq_ok.mpr ⟨(), if_pos hrun, Except.bind_eq_ok.mpr ⟨_, hinsert, rfl⟩⟩⟩

theorem step_recordHalt {moved : Bool} (h : recordHalt sha256 json db e = .ok (db', moved)) :
    step sha256 json db (.recordHalt e) = db' := by
  simp only [step, perform, h, Except.map]

theorem runHalts_concat (db : RunTables K V) (events : List (KillSwitchEvent K)) (e : KillSwitchEvent K) :
    runHalts sha256 json db (events ++ [e]) = step sha256 json (runHalts sha256 json db events) (.recordHalt e) := by
  rw [runHalts, List.map_append, List.map_singleton, run_concat, runHalts]

/-- A stored event row and a stored request stay through any record. -/
theorem step_keeps (db : RunTables K V) (e : KillSwitchEvent K) :
    db.killSwitchEvents ⊆ (step sha256 json db (.recordHalt e)).killSwitchEvents ∧
      ∀ trigger r, request? db runId trigger = some r →
        request? (step sha256 json db (.recordHalt e)) runId trigger = some r := by
  cases h : recordHalt sha256 json db e with
  | error x =>
    have hstep : step sha256 json db (.recordHalt e) = db := by simp only [step, perform, h, Except.map]
    rw [hstep]
    exact ⟨fun _ hx => hx, fun _ _ hr => hr⟩
  | ok x =>
    obtain ⟨db', moved⟩ := x
    have hH := recordHalt_eq_ok h
    rw [step_recordHalt h]
    refine ⟨fun row hrow => ?_, fun trigger r hr => ?_⟩
    · rw [hH.events]
      exact KeyedTable.mem_insertAll_of_mem hrow
    · rw [request?, hH.requests]
      exact KeyedTable.find_insertAll_of_some hr

theorem runHalts_keeps (db : RunTables K V) (before after : List (KillSwitchEvent K)) :
    (runHalts sha256 json db before).killSwitchEvents ⊆ (runHalts sha256 json db (before ++ after)).killSwitchEvents ∧
      ∀ trigger r, request? (runHalts sha256 json db before) runId trigger = some r →
        request? (runHalts sha256 json db (before ++ after)) runId trigger = some r := by
  induction after using List.reverseRecOn with
  | nil =>
    rw [List.append_nil]
    exact ⟨fun _ hx => hx, fun _ _ hr => hr⟩
  | append_singleton after e ih =>
    rw [← List.append_assoc, runHalts_concat]
    have hstep := @step_keeps K V _ _ sha256 json runId (runHalts sha256 json db (before ++ after)) e
    exact ⟨fun _ hx => hstep.1 (ih.1 hx), fun trigger r hr => hstep.2 trigger r (ih.2 trigger r hr)⟩

/-! ### A sequence of records -/

/-- What a sequence of recorded halts leaves of their run: requests and event rows are those of the halts. -/
structure HaltsStored (sha256 : String → Sha256Hex) (json : AuditJson K) (runId : UUID) (done : List (KillSwitchEvent K))
    (db : RunTables K V) : Prop where
  stored : (db.run? runId).isSome
  requests : ∀ trigger r, request? db runId trigger = some r → ∃ e ∈ done, e.trigger = trigger ∧ r = haltRequest e
  events : ∀ row ∈ db.killSwitchEvents, row.record.runId = runId →
    row.record ∈ done ∧ row.dedupeKey = sha256 (json.event row.record)

theorem HaltsStored.of_unhalted (hrun : (db.run? runId).isSome) (h : Unhalted db runId) :
    HaltsStored sha256 json runId [] db := by
  refine ⟨hrun, fun trigger r hr => ?_, fun row hrow hid => absurd hid (h.events row hrow)⟩
  obtain ⟨hmem, hkey⟩ := KeyedTable.find_some hr
  exact absurd (congrArg Prod.fst hkey) (h.requests r hmem)

theorem HaltsStored.record {done : List (KillSwitchEvent K)} (h : HaltsStored sha256 json runId done db)
    (he : e.runId = runId) (hH : HaltRecorded sha256 json db e db') : HaltsStored sha256 json runId (done ++ [e]) db' := by
  refine ⟨?_, fun trigger r hr => ?_, fun row hrow hid => ?_⟩
  · rw [hH.run?, if_pos he.symm, Option.isSome_map]
    exact h.stored
  · rw [request?, hH.requests, KeyedTable.find_insertAll] at hr
    rcases Option.or_eq_some_iff.mp hr with hold | ⟨-, hnew⟩
    · obtain ⟨e₀, he₀, htrigger, rfl⟩ := h.requests trigger r hold
      exact ⟨e₀, List.mem_append_left _ he₀, htrigger, rfl⟩
    · obtain ⟨hmem, hkey⟩ := KeyedTable.find_some hnew
      rw [List.mem_singleton.mp hmem] at hkey ⊢
      exact ⟨e, List.mem_append_right _ List.mem_cons_self, congrArg Prod.snd hkey, rfl⟩
  · rw [hH.events] at hrow
    rcases KeyedTable.mem_of_mem_insertAll hrow with hold | hnew
    · obtain ⟨hdone, hkey⟩ := h.events row hold hid
      exact ⟨List.mem_append_left _ hdone, hkey⟩
    · rw [List.mem_singleton.mp hnew]
      exact ⟨List.mem_append_right _ List.mem_cons_self, rfl⟩

/-- The event of a successful record is held: a row that was there under its key is the event itself. -/
theorem HaltsStored.holds {done : List (KillSwitchEvent K)} (h : HaltsStored sha256 json runId done db)
    (he : e.runId = runId) (hH : HaltRecorded sha256 json db e db')
    (hdistinct : ∀ x ∈ done, sha256 (json.event x) = sha256 (json.event e) → x = e) : Holds db' e := by
  have hfind : ∃ row, KeyedTable.find RunTables.eventKey db'.killSwitchEvents
      (RunTables.eventKey (dedupeRow sha256 json.event e)) = some row := by
    rw [hH.events, KeyedTable.find_insertAll, ← Option.isSome_iff_exists, Option.isSome_or,
      KeyedTable.find_isSome List.mem_cons_self, Bool.or_true]
  obtain ⟨row, hrow⟩ := hfind
  obtain ⟨hmem, hkey⟩ := KeyedTable.find_some hrow
  have hrunId : row.record.runId = e.runId := congrArg Prod.fst hkey
  have hdigest : row.dedupeKey = sha256 (json.event e) := congrArg Prod.snd hkey
  obtain ⟨hdone, hown⟩ := (h.record he hH).events row hmem (hrunId.trans he)
  refine ⟨row, hmem, ?_⟩
  rcases List.mem_append.mp hdone with hold | hnew
  · exact hdistinct row.record hold (hown.symm.trans hdigest)
  · exact List.mem_singleton.mp hnew

theorem recordHalt_succeeds {done : List (KillSwitchEvent K)} (h : HaltsStored sha256 json runId done db)
    (he : e.runId = runId)
    (hsame : ∀ x ∈ done, x.trigger = e.trigger → x.triggeredAt.instant = e.triggeredAt.instant) :
    ∃ db' moved, recordHalt sha256 json db e = .ok (db', moved) := by
  subst he
  refine recordHalt_ok h.stored fun r hr => ?_
  obtain ⟨x, hx, htrigger, rfl⟩ := h.requests e.trigger r hr
  exact agree_haltRequests (hsame x hx htrigger)

theorem runHalts_stored (hrun : (db.run? runId).isSome) (hnone : Unhalted db runId) (hids : ∀ e ∈ events, e.runId = runId)
    (hsame : ∀ e ∈ events, ∀ e' ∈ events, e.trigger = e'.trigger → e.triggeredAt.instant = e'.triggeredAt.instant) :
    HaltsStored sha256 json runId events (runHalts sha256 json db events) := by
  induction events using List.reverseRecOn with
  | nil => exact HaltsStored.of_unhalted hrun hnone
  | append_singleton events e ih =>
    have hleft : ∀ x ∈ events, x ∈ events ++ [e] := fun x hx => List.mem_append_left _ hx
    have he : e ∈ events ++ [e] := List.mem_append_right _ List.mem_cons_self
    have hS := ih (fun x hx => hids x (hleft x hx)) fun x hx y hy => hsame x (hleft x hx) y (hleft y hy)
    obtain ⟨db', moved, hok⟩ := recordHalt_succeeds hS (hids e he) fun x hx => hsame x (hleft x hx) e he
    rw [runHalts_concat, step_recordHalt hok]
    exact hS.record (hids e he) (recordHalt_eq_ok hok)

/-- The request of a recorded halt carries its time, to the end of the sequence. -/
theorem AllRecorded.request (h : AllRecorded sha256 json db events) (he : e ∈ events) :
    ∃ r, request? (runHalts sha256 json db events) e.runId e.trigger = some r ∧
      r.tau.instant = e.triggeredAt.instant := by
  obtain ⟨before, after, hevents⟩ := List.mem_iff_append.mp he
  obtain ⟨⟨db', moved, hok, -⟩, -⟩ := h before e after hevents
  obtain ⟨r, hr, hagree⟩ := (recordHalt_eq_ok hok).agree
  refine ⟨r, ?_, agree_haltRequest hagree⟩
  have hkeeps := @runHalts_keeps K V _ _ sha256 json e.runId db (before ++ [e]) after
  rw [runHalts_concat, step_recordHalt hok, List.append_assoc, List.singleton_append, ← hevents] at hkeeps
  exact hkeeps.2 e.trigger r hr

/-- Every halt of a run is recorded, and none is lost, exactly when the halts of one trigger have one time. -/
theorem allRecorded_iff (hrun : (db.run? runId).isSome) (hnone : Unhalted db runId)
    (hids : ∀ e ∈ events, e.runId = runId) (hdistinct : EventsDistinct sha256 json events) :
    AllRecorded sha256 json db events ↔
      ∀ e ∈ events, ∀ e' ∈ events, e.trigger = e'.trigger → e.triggeredAt.instant = e'.triggeredAt.instant := by
  constructor
  · intro h e he e' he' htrigger
    obtain ⟨r, hr, htau⟩ := h.request he
    obtain ⟨r', hr', htau'⟩ := h.request he'
    rw [hids e he, htrigger] at hr
    rw [hids e' he', hr] at hr'
    cases hr'
    exact htau.symm.trans htau'
  · intro hsame before e after hevents
    subst hevents
    have hbefore : ∀ x ∈ before, x ∈ before ++ e :: after := fun x hx => List.mem_append_left _ hx
    have he : e ∈ before ++ e :: after := List.mem_append_right _ List.mem_cons_self
    have hS := @runHalts_stored K V _ _ sha256 json db runId before hrun hnone (fun x hx => hids x (hbefore x hx))
      fun x hx y hy => hsame x (hbefore x hx) y (hbefore y hy)
    obtain ⟨db', moved, hok⟩ := recordHalt_succeeds hS (hids e he) fun x hx => hsame x (hbefore x hx) e he
    have hholds := hS.holds (hids e he) (recordHalt_eq_ok hok) fun x hx => hdistinct x (hbefore x hx) e he
    refine ⟨⟨db', moved, hok, hholds⟩, ?_⟩
    obtain ⟨row, hrow, hrecord⟩ := hholds
    have hkeeps := @runHalts_keeps K V _ _ sha256 json runId db (before ++ [e]) after
    rw [runHalts_concat, step_recordHalt hok, List.append_assoc, List.singleton_append] at hkeeps
    exact ⟨row, hkeeps.1 hrow, hrecord⟩

/-! ### A halt repeated later -/

section Repeated

/-- A digest of ones. -/
def onesHex : Sha256Hex := ⟨"1111111111111111111111111111111111111111111111111111111111111111", by decide⟩

/-- Audit texts and digests that tell a flattening halt from another. -/
def haltJson : AuditJson ℚ := ⟨fun e => if e.flattened then "flattened" else "halted", fun _ => ""⟩

def haltDigest (text : String) : Sha256Hex := if text = "flattened" then onesHex else zeroHex

/-- A manual halt of run 1: the first reports no flatten, its repetition does. -/
def manualHalt (instant : Int) (flattened : Bool) : KillSwitchEvent ℚ where
  runId := ⟨1⟩
  triggeredAt := ⟨instant, 0⟩
  trigger := .manual
  dailyLoss := none
  peakDrawdown := none
  cancelledOrderIds := []
  flattened := flattened
  only_manual_flattens := fun _ => rfl

/-- A stale feed halts run 1. -/
def staleHalt (instant : Int) : KillSwitchEvent ℚ where
  runId := ⟨1⟩
  triggeredAt := ⟨instant, 0⟩
  trigger := .staleFeed
  dailyLoss := none
  peakDrawdown := none
  cancelledOrderIds := []
  flattened := false
  only_manual_flattens := nofun

/-- Run 1, committed. -/
def committedTables : RunTables ℚ Unit := { noTables with runs := [(runAt .committed).toRunRow] }

theorem committedTables_unhalted : Unhalted committedTables ⟨1⟩ :=
  ⟨fun _ h => absurd h List.not_mem_nil, fun _ h => absurd h List.not_mem_nil⟩

/-- A stale feed halts the run and the operator halts it later: both are recorded. -/
theorem allRecorded_iff_stale :
    AllRecorded haltDigest haltJson committedTables [staleHalt 1, manualHalt 2 true] := by
  have hids : ∀ e ∈ [staleHalt 1, manualHalt 2 true], e.runId = ⟨1⟩ := by decide
  have hdistinct : EventsDistinct haltDigest haltJson [staleHalt 1, manualHalt 2 true] := by
    unfold EventsDistinct
    decide
  exact (allRecorded_iff (by decide) committedTables_unhalted hids hdistinct).mpr (by decide)

/-- A manual halt repeated later, now flattening, contradicts the request of the first and is not recorded. -/
theorem repeated_halt_lost :
    recordHalt haltDigest haltJson (runHalts haltDigest haltJson committedTables [manualHalt 1 false]) (manualHalt 2 true) =
        .error (.immutableConflict .haltReferenceRequests "tau") ∧
      ¬Holds (runHalts haltDigest haltJson committedTables [manualHalt 1 false, manualHalt 2 true]) (manualHalt 2 true) := by
  have hevents : (runHalts haltDigest haltJson committedTables [manualHalt 1 false, manualHalt 2 true]).killSwitchEvents =
    [⟨manualHalt 1 false, zeroHex⟩] := rfl
  refine ⟨rfl, ?_⟩
  rintro ⟨row, hrow, hrecord⟩
  rw [hevents, List.mem_singleton] at hrow
  rw [hrow] at hrecord
  exact absurd (congrArg KillSwitchEvent.flattened hrecord) (by decide)

end Repeated

end Sink
end AsymmetricCommittee
