import AsymmetricCommittee.Theorems.RunStore
import AsymmetricCommittee.Contracts.Samples
import Mathlib.Logic.Relation

/-! Which operations move a run backwards. Conditional updates never do, and a reset only starts a run over
    that holds no commitment. A flush can: its guard refuses to demote a committed run to PENDING, PARTIAL or
    FAILED, and to touch a halted one, but lets a late flush of any other status through. -/

namespace AsymmetricCommittee
namespace Sink
open Store

variable {K V : Type} [Field K] [LinearOrder K] {sha256 : String → Sha256Hex} {json : AuditJson K}
  {db db' : RunTables K V} {runId : UUID}

/-- `can_transition`. -/
def canTransition (src dst : RunStatus) : Prop := dst ∈ runTransitions src

instance (src dst : RunStatus) : Decidable (canTransition src dst) := inferInstanceAs (Decidable (_ ∈ _))

/-- `s` comes before `t` on the paths of `RUN_TRANSITIONS`. -/
def Earlier : RunStatus → RunStatus → Prop := Relation.TransGen canTransition

/-- A run's stored status moved to an earlier one. -/
def MovesBack (before after : Option RunStatus) : Prop := ∃ s ∈ before, ∃ t ∈ after, Earlier t s

/-- A flush of status `presented` that cannot move the stored run back: the status is not earlier, or the run
    is committed or later and the status PENDING, PARTIAL or FAILED, or the run is PARTIAL by a halt or without
    a reason. -/
def Forward (stored : RunRow K) (presented : RunStatus) : Prop :=
  ¬Earlier presented stored.status ∨ (stored.status ∈ advanced ∧ presented ∈ regressive) ∨
    (stored.status = .partialRun ∧ ∀ reason ∈ stored.statusReason, isHaltReason reason = true)

/-! ### The order of the statuses -/

/-- How far along the paths a status is. -/
def rank : RunStatus → Nat
  | .pending => 0
  | .ingestOk => 1
  | .featuresOk => 2
  | .gated => 3
  | .agentsOk => 4
  | .committed => 5
  | .anchored => 6
  | .executed => 7
  | .scored => 8
  | .failed => 8
  | .partialRun => 8

theorem rank_lt_of_canTransition {s t : RunStatus} (h : canTransition s t) : rank s < rank t := by
  cases s <;> cases t <;> first | exact absurd h (by decide) | decide

theorem rank_lt_of_earlier {s t : RunStatus} (h : Earlier s t) : rank s < rank t := by
  induction h with
  | single h => exact rank_lt_of_canTransition h
  | tail _ h ih => exact ih.trans (rank_lt_of_canTransition h)

theorem not_earlier_self (s : RunStatus) : ¬Earlier s s := fun h => lt_irrefl _ (rank_lt_of_earlier h)

theorem not_movesBack_self (s : Option RunStatus) : ¬MovesBack s s := by
  rintro ⟨a, ha, b, hb, h⟩
  rw [Option.mem_unique hb ha] at h
  exact not_earlier_self a h

/-! ### What one operation does to the status of a run -/

theorem status?_congr (h : db'.run? runId = db.run? runId) : db'.status? runId = db.status? runId := by
  rw [RunTables.status?, h, RunTables.status?]

theorem not_movesBack_of_run? (h : db'.run? runId = db.run? runId) : ¬MovesBack (db.status? runId) (db'.status? runId) := by
  rw [status?_congr h]
  exact not_movesBack_self _

/-- A conditional update to a status that is not earlier moves nothing back. -/
theorem not_movesBack_update {p : RunRow K → Bool} {set : RunRow K → RunRow K}
    (hrun : db'.run? runId = (db.run? runId).map fun r => if p r then set r else r)
    (hset : ∀ r, p r = true → ¬Earlier (set r).status r.status) :
    ¬MovesBack (db.status? runId) (db'.status? runId) := by
  rintro ⟨s, hs, t, ht, h⟩
  rw [RunTables.status?, hrun] at ht
  rw [RunTables.status?] at hs
  cases hr : db.run? runId with
  | none =>
    rw [hr] at hs
    cases hs
  | some r =>
    rw [hr] at hs ht
    cases hs
    simp only [Option.map_some, Option.mem_def, Option.some.injEq] at ht
    split at ht
    · next hc =>
      rw [← ht] at h
      exact hset r hc h
    · rw [← ht] at h
      exact not_earlier_self _ h

/-- The guard of the upsert lets an earlier status through unless the flush is forward. -/
theorem upsertAllowed_iff {stored : RunRow K} {presented : RunStatus} (h : Earlier presented stored.status) :
    upsertAllowed stored presented = true ↔ ¬Forward stored presented := by
  have hreason : stored.statusReason.any (fun reason => !isHaltReason reason) = true ↔
      ¬∀ reason ∈ stored.statusReason, isHaltReason reason = true := by
    cases stored.statusReason <;> simp
  simp only [upsertAllowed, Forward, h, not_true_eq_false, false_or, not_or, Bool.and_eq_true, Bool.not_eq_true',
    Bool.or_eq_true, bne_iff_ne, hreason, not_and, Bool.and_eq_false_iff, decide_eq_false_iff_not, ne_eq]
  refine and_congr ?_ ?_
  · exact ⟨fun h h' => h.resolve_left (not_not.mpr h'), fun h => or_iff_not_imp_left.mpr fun h' => h (not_not.mp h')⟩
  · exact ⟨fun h h' => h.resolve_left (not_not.mpr h'), fun h => or_iff_not_imp_left.mpr fun h' => h (not_not.mp h')⟩

/-- A flush that succeeds moves its run back exactly when it is not forward. -/
theorem flushStep_movesBack_iff {s : StepArtifacts K V} (hF : Flushed sha256 json db s db') :
    MovesBack (db.status? s.run.runId) (db'.status? s.run.runId) ↔
      ∃ stored, db.run? s.run.runId = some stored ∧ ¬Forward stored s.run.status := by
  have hrun := hF.run? s.run.runId
  rw [if_pos rfl] at hrun
  cases hstored : db.run? s.run.runId with
  | none => simp [MovesBack, RunTables.status?, hstored]
  | some stored =>
    rw [hstored] at hrun
    have hstatus : db'.status? s.run.runId =
        some (if upsertAllowed stored s.run.status then s.run.status else stored.status) := by
      rw [RunTables.status?, hrun, flushedRow]
      split <;> rfl
    constructor
    · rintro ⟨a, ha, b, hb, h⟩
      rw [RunTables.status?, hstored] at ha
      cases ha
      rw [hstatus] at hb
      cases hb
      split at h
      · next hallowed => exact ⟨stored, rfl, (upsertAllowed_iff h).mp hallowed⟩
      · exact absurd h (not_earlier_self _)
    · rintro ⟨x, hx, hback⟩
      cases hx
      have hearlier : Earlier s.run.status stored.status := not_not.mp fun h => hback (Or.inl h)
      refine ⟨stored.status, ?_, s.run.status, ?_, hearlier⟩
      · rw [RunTables.status?, hstored]
        rfl
      · rw [hstatus, if_pos ((upsertAllowed_iff hearlier).mpr hback)]
        rfl

/-- Of the operations on a run, only a flush that is not forward and the reset of a run without a commitment
    move it back. -/
theorem step_movesBack {op : Op K V} (h : MovesBack (db.status? runId) ((step sha256 json db op).status? runId)) :
    (∃ s stored, op = .flushStep s ∧ s.run.runId = runId ∧ db.run? runId = some stored ∧ ¬Forward stored s.run.status) ∨
    ∃ actor reason now, op = .resetRun runId actor reason now ∧ db.commitment? runId = none := by
  unfold step at h
  cases hp : perform sha256 json db op with
  | error e =>
    rw [hp] at h
    exact absurd h (not_movesBack_self _)
  | ok db' =>
    rw [hp] at h
    simp only at h
    cases op with
    | flushStep s =>
      have hF := flushStep_eq_ok hp
      by_cases hid : runId = s.run.runId
      · subst hid
        obtain ⟨stored, hstored, hback⟩ := (flushStep_movesBack_iff hF).mp h
        exact Or.inl ⟨s, stored, rfl, rfl, hstored, hback⟩
      · exact absurd h (not_movesBack_of_run? ((hF.run? runId).trans (if_neg hid)))
    | recordAnchor a =>
      have hframe := upsertAnchor_eq_ok hp
      refine absurd h (not_movesBack_of_run? ?_)
      rw [hframe]
      rfl
    | markAnchored a =>
      obtain ⟨⟨db₂, moved⟩, hx, rfl⟩ := Except.map_eq_ok.mp hp
      obtain ⟨db₁, h₁, rfl⟩ := advanceToAnchored_eq_ok hx
      have hrun₁ : ∀ id, db₁.run? id = db.run? id := fun id => by
        rw [upsertAnchor_eq_ok h₁]
        rfl
      have hset : ∀ r : RunRow K, ({ r with status := .anchored } : RunRow K).runId = r.runId := fun _ => rfl
      have hrun := run?_updateRun db₁ a.runId (fun r => decide (r.status = .committed)) hset runId
      by_cases hid : runId = a.runId
      · rw [if_pos hid, hrun₁] at hrun
        refine absurd h (not_movesBack_update hrun fun r hc hearlier => ?_)
        rw [of_decide_eq_true hc] at hearlier
        have hlt : rank .anchored < rank .committed := rank_lt_of_earlier hearlier
        exact absurd hlt (by decide)
      · rw [if_neg hid, hrun₁] at hrun
        exact absurd h (not_movesBack_of_run? hrun)
    | markExecuted id endedAt =>
      cases hp
      have hset : ∀ r : RunRow K, ({ r with status := .executed, endedAt := some endedAt, statusReason := none } :
        RunRow K).runId = r.runId := fun _ => rfl
      have hrun := run?_updateRun db id (fun r => decide (r.status = .anchored)) hset runId
      by_cases hid : runId = id
      · rw [if_pos hid] at hrun
        refine absurd h (not_movesBack_update hrun fun r hc hearlier => ?_)
        rw [of_decide_eq_true hc] at hearlier
        have hlt : rank .executed < rank .anchored := rank_lt_of_earlier hearlier
        exact absurd hlt (by decide)
      · rw [if_neg hid] at hrun
        exact absurd h (not_movesBack_of_run? hrun)
    | recordHalt e =>
      obtain ⟨⟨db₂, moved⟩, hx, rfl⟩ := Except.map_eq_ok.mp hp
      have hrun := (recordHalt_eq_ok hx).run? runId
      by_cases hid : runId = e.runId
      · rw [if_pos hid] at hrun
        have hupdate : db₂.run? runId = (db.run? runId).map fun r => if decide (r.status ∈ haltable) then
            { r with status := .partialRun, statusReason := some (haltReason e.trigger), endedAt := some e.triggeredAt }
          else r := by simpa only [decide_eq_true_eq] using hrun
        refine absurd h (not_movesBack_update hupdate fun r _ hearlier => ?_)
        -- no status comes after PARTIAL
        have hlt : rank .partialRun < rank r.status := rank_lt_of_earlier hearlier
        have hmax : ∀ s, rank s ≤ rank .partialRun := fun s => by cases s <;> decide
        exact absurd hlt (not_lt.mpr (hmax r.status))
      · rw [if_neg hid] at hrun
        exact absurd h (not_movesBack_of_run? hrun)
    | resetRun id actor reason now =>
      have hR := resetRun_eq_ok hp
      have hrun := hR.run? runId
      by_cases hid : runId = id
      · subst hid
        exact Or.inr ⟨actor, reason, now, rfl, KeyedTable.find_eq_none.mpr hR.uncommitted⟩
      · rw [if_neg hid] at hrun
        exact absurd h (not_movesBack_of_run? hrun)

/-! ### Runs -/

theorem run_concat (db : RunTables K V) (ops : List (Op K V)) (op : Op K V) :
    run sha256 json db (ops ++ [op]) = step sha256 json (run sha256 json db ops) op := by
  rw [run, List.foldl_append]
  rfl

/-- Every flush of the run is forward in the state it finds. -/
def FlushesForward (sha256 : String → Sha256Hex) (json : AuditJson K) (db : RunTables K V) (runId : UUID)
    (ops : List (Op K V)) : Prop :=
  ∀ before s after, ops = before ++ .flushStep s :: after → s.run.runId = runId →
    ∀ stored, (run sha256 json db before).run? runId = some stored → Forward stored s.run.status

/-- In every sequence of store operations whose flushes are forward, each operation leaves the run where it was
    or moves it on, except the reset of a run that holds no commitment. -/
theorem run_never_movesBack {ops : List (Op K V)} (hforward : FlushesForward sha256 json db runId ops)
    {before after : List (Op K V)} {op : Op K V} (hops : ops = before ++ op :: after)
    (hback : MovesBack ((run sha256 json db before).status? runId) ((run sha256 json db (before ++ [op])).status? runId)) :
    ∃ actor reason now, op = .resetRun runId actor reason now ∧ (run sha256 json db before).commitment? runId = none := by
  rw [run_concat] at hback
  rcases step_movesBack hback with ⟨s, stored, rfl, hid, hstored, hnot⟩ | hreset
  · exact absurd (hforward before s after hops hid stored hstored) hnot
  · exact hreset

/-! ### A replayed flush -/

section Replay

/-- A digest of zeros. -/
def zeroHex : Sha256Hex := ⟨"0000000000000000000000000000000000000000000000000000000000000000", Samples.sha256_zeros⟩

/-- Run 1 in a status. -/
def runAt (status : RunStatus) : RunRecord ℚ where
  runId := ⟨1⟩
  mode := .live
  asOf := ⟨0, 0⟩
  configHash := zeroHex
  status := status
  startedAt := ⟨0, 0⟩
  endedAt := none
  statusReason := none
  totalCostUsd := ⟨0, nonNegative_zero ℚ⟩
  valid := ⟨fun _ h => absurd h (Option.not_mem_none _), fun _ h => absurd h (Option.not_mem_none _)⟩

/-- A flush of run 1 in a status, with its commitment if there is one. -/
def stepAt (status : RunStatus) (commitment : Option DecisionCommitment) (h : ∀ c ∈ commitment, c.runId = ⟨1⟩) :
    StepArtifacts ℚ Unit where
  run := runAt status
  verdicts := []
  decisions := []
  portfolio := none
  commitment := commitment
  dlq := []
  killSwitch := []
  verdicts_run _ hv := absurd hv List.not_mem_nil
  decisions_run _ hd := absurd hd List.not_mem_nil
  portfolio_run _ hp := absurd hp (Option.not_mem_none _)
  commitment_run := h
  dlq_run _ hd := absurd hd List.not_mem_nil
  killSwitch_run _ he := absurd he List.not_mem_nil

/-- The flush that commits run 1. -/
def committedStep : StepArtifacts ℚ Unit :=
  stepAt .committed (some ⟨⟨1⟩, zeroHex, ⟨0, 0⟩⟩) fun _ hc => by cases hc; rfl

theorem none_committed : ∀ c ∈ (none : Option DecisionCommitment), c.runId = ⟨1⟩ := fun c hc => absurd hc (Option.not_mem_none c)

/-- The flush that reports run 1 failed. -/
def failedStep : StepArtifacts ℚ Unit := stepAt .failed none none_committed

def committedAnchor : CommitmentAnchor where
  runId := ⟨1⟩
  sha256 := zeroHex
  otsProof := some [0]
  gitCommit := some ⟨"0", Samples.label_zero⟩
  anchoredAt := ⟨1, 0⟩
  verifiedAt := none

/-- Empty tables. -/
def noTables : RunTables ℚ Unit := ⟨[], [], [], [], [], [], [], [], [], [], [], []⟩

/-- Audit texts of a run without audit rows. -/
def noJson : AuditJson ℚ := ⟨fun _ => "", fun _ => ""⟩

/-- The flush that committed a run, replayed after the run was anchored, writes it back to COMMITTED. -/
theorem replayed_flush_movesBack :
    MovesBack ((run (fun _ => zeroHex) noJson noTables [.flushStep committedStep, .markAnchored committedAnchor]).status? ⟨1⟩)
      ((run (fun _ => zeroHex) noJson noTables
        [.flushStep committedStep, .markAnchored committedAnchor, .flushStep committedStep]).status? ⟨1⟩) :=
  ⟨.anchored, by decide, .committed, by decide, .single (by decide)⟩

/-- A failed run moves back by its reset. -/
theorem run_never_movesBack_failed : ∃ actor reason now,
    Op.resetRun (K := ℚ) (V := Unit) ⟨1⟩ "operator" "retry" ⟨2, 0⟩ = .resetRun ⟨1⟩ actor reason now ∧
      (run (fun _ => zeroHex) noJson noTables [.flushStep failedStep]).commitment? ⟨1⟩ = none := by
  have hforward : FlushesForward (fun _ => zeroHex) noJson noTables ⟨1⟩
      [.flushStep failedStep, .resetRun ⟨1⟩ "operator" "retry" ⟨2, 0⟩] := by
    intro before s after hops hid stored hstored
    match before, hops with
    | [], _ => cases hstored
    | [_], hops => simp at hops
    | _ :: _ :: before, hops => simp at hops
  have hops : [.flushStep failedStep, .resetRun ⟨1⟩ "operator" "retry" ⟨2, 0⟩] =
      [Op.flushStep failedStep] ++ .resetRun ⟨1⟩ "operator" "retry" ⟨2, 0⟩ :: [] := rfl
  exact run_never_movesBack hforward hops
    ⟨.failed, by decide, .pending, by decide, .single (by decide)⟩

end Replay

end Sink
end AsymmetricCommittee
