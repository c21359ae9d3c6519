import AsymmetricCommittee.Theorems.ExecutionGate
import AsymmetricCommittee.Theorems.RunStore

/-! The status that the execution stage reports, beside the tables that it ran over while others changed them. The result
    says EXECUTED also where the conditional update found another status. -/

namespace AsymmetricCommittee

namespace Store
variable {K V : Type} [Field K] [LinearOrder K] {c : StoreCodec} {db db' : RunTables K V} {runId : UUID}

/-- The conditional update advances an anchored run, and leaves every other one. -/
theorem advanceToExecuted_status {endedAt : AwareDatetime} {advanced : Bool}
    (h : advanceToExecuted db runId endedAt = (db', advanced)) :
    (advanced = true ↔ db.status? runId = some .anchored) ∧
    db'.status? runId = if advanced then some .executed else db.status? runId := by
  obtain ⟨rfl, rfl⟩ := Prod.mk.inj h
  unfold RunTables.status? RunTables.updates
  have hset (r : RunRow K) : ({ r with status := .executed, endedAt := some endedAt, statusReason := none } :
      RunRow K).runId = r.runId := rfl
  rw [Sink.run?_updateRun _ _ _ hset, if_pos rfl]
  cases db.run? runId with
  | none => simp
  | some row =>
    by_cases hstatus : row.status = .anchored
    · simp [hstatus]
    · simp [hstatus]

theorem loadRun_status {run : RunRecord K} (h : loadRun c db runId = .ok (some run)) :
    db.status? runId = some run.status := by
  unfold loadRun at h
  split at h
  · cases h
  · next row hrow =>
    split at h
    · obtain rfl := Option.some.inj (Except.ok.inj h)
      rw [RunTables.status?, hrow]
      rfl
    · cases h

end Store

namespace ExecutionStage
open OpenTimestamps Executor
variable {K V O Header : Type} [Field K] [LinearOrder K]

/-- A call of the stage with the tables before and after it; the tables may have changed between two calls. -/
structure Seen (K V : Type) [Field K] [LinearOrder K] where
  event : Event (desk K)
  before : RunTables K V
  after : RunTables K V

/-- The store loads and advances the run in its tables. -/
def Answered (c : StoreCodec) (x : Seen K V) : Prop :=
  match x.event with
  | ⟨.request (.loadRun runId), .ok found⟩ => x.after = x.before ∧ Store.loadRun c x.before runId = .ok found
  | ⟨.request (.markExecuted runId endedAt), .ok advanced⟩ =>
    Store.advanceToExecuted x.before runId endedAt = (x.after, advanced)
  | _ => True

/-- What a result says is what was stored: EXECUTED is only reported if the run was EXECUTED during the call, and after a
    conditional update that did not apply the stored status is reported. -/
structure Truthful (runId : UUID) (result : ExecutionResult K) (seen : List (Seen K V)) : Prop where
  executed : result.status = .executed → ∃ x ∈ seen, x.after.status? runId = some .executed
  unapplied : ∀ x ∈ seen, ∀ endedAt, x.event = returned (.markExecuted runId endedAt) false →
    x.after.status? runId = some result.status

/-- The run is still anchored, or executed already, when its row is to be advanced. -/
def InTime (runId : UUID) (seen : List (Seen K V)) : Prop :=
  ∀ x ∈ seen, Marks x.event.call → x.before.status? runId = some .anchored ∨ x.before.status? runId = some .executed

/-- The result tells what is stored exactly when no one took the run out of ANCHORED before the conditional update, unless
    to EXECUTED. -/
theorem reported_status_iff [FloorRing K] (c : StoreCodec) (e : Stage K O Header) (runId : UUID) (s s' : Switch)
    (seen : List (Seen K V)) (result : ExecutionResult K) (hanswered : ∀ x ∈ seen, Answered c x)
    (hruns : ((executeRun e runId).start s).Runs (seen.map Seen.event) (.done (.ok result, s'))) :
    Truthful runId result seen ↔ InTime runId seen := by
  have hreports : Reports runId result (seen.map Seen.event) := executeRun_meets.of_runs_done hruns
  rcases hreports with ⟨hunmarked, hstatus⟩ | ⟨before, endedAt, advanced, hsplit, hunmarked, hexecuted⟩
  · have hnone : ∀ x ∈ seen, ¬Marks x.event.call := fun x hx => hunmarked _ (List.mem_map_of_mem hx)
    refine ⟨fun _ x hx hmarks => absurd hmarks (hnone x hx), fun _ => ⟨fun hexecuted => ?_, fun x hx endedAt hx' => ?_⟩⟩
    · obtain ⟨run, hmem, hrun⟩ := hstatus.resolve_left fun h => h hexecuted
      obtain ⟨x, hx, hevent⟩ := List.mem_map.mp hmem
      have hans := hanswered x hx
      rw [Answered, hevent] at hans
      obtain ⟨hafter, hload⟩ := hans
      refine ⟨x, hx, ?_⟩
      rw [hafter, Store.loadRun_status hload, hrun, hexecuted]
    · refine absurd ?_ (hnone x hx)
      rw [hx']
      trivial
  · obtain ⟨seen, tail, rfl, hbefore, htail⟩ := List.map_eq_append_iff.mp hsplit
    obtain ⟨x, rest, rfl, hevent, hrest⟩ := List.map_eq_cons_iff.mp htail
    obtain rfl := List.map_eq_nil_iff.mp hrest
    have hans := hanswered x (by simp)
    rw [Answered, hevent] at hans
    obtain ⟨hadvanced, hafter⟩ := Store.advanceToExecuted_status hans
    have honly : ∀ y ∈ seen ++ [x], Marks y.event.call → y = x := by
      intro y hy hmarks
      rcases List.mem_append.mp hy with hy | hy
      · exact absurd hmarks (hunmarked _ (hbefore ▸ List.mem_map_of_mem hy))
      · exact List.mem_singleton.mp hy
    constructor
    · intro htruthful y hy hmarks
      obtain rfl := honly y hy hmarks
      cases advanced with
      | true => exact Or.inl (hadvanced.mp rfl)
      | false =>
        have hstored := htruthful.unapplied y hy endedAt hevent
        rw [hafter, hexecuted] at hstored
        exact Or.inr hstored
    · intro htimely
      have hdone : x.after.status? runId = some .executed := by
        rw [hafter]
        cases advanced with
        | true => rfl
        | false =>
          have hmarks : Marks x.event.call := by
            rw [hevent]
            trivial
          rcases htimely x (by simp) hmarks with hanchored | hexec
          · exact absurd (hadvanced.mpr hanchored) Bool.false_ne_true
          · exact hexec
      refine ⟨fun _ => ⟨x, by simp, hdone⟩, fun y hy endedAt' hy' => ?_⟩
      have hmarks : Marks y.event.call := by
        rw [hy']
        trivial
      rw [honly y hy hmarks, hdone, hexecuted]

/-! ### A sale and a halt -/

/-- A manual halt of the run is recorded, or nothing happens. -/
def Halts (sha256 : String → Sha256Hex) (json : AuditJson K) (runId : UUID) (db db' : RunTables K V) : Prop :=
  db' = db ∨ ∃ event moved, event.runId = runId ∧ event.trigger = .manual ∧
    Store.recordHalt sha256 json db event = .ok (db', moved)

/-- Only manual halts of the run come between the calls. -/
def Interleaved (sha256 : String → Sha256Hex) (json : AuditJson K) (runId : UUID) (seen : List (Seen K V)) : Prop :=
  ∀ past x y rest, seen = past ++ x :: y :: rest → Halts sha256 json runId x.after y.before

/-- The sale of all shares, where the store says whether it advanced run 1. -/
def runAnswer (advanced : Bool) : (c : DeskCall ℚ) → Sale → c.Reply × Sale
  | .request (.loadRun id), w => (.ok (if id = ⟨1⟩ then some (Sink.runAt .anchored) else none), w)
  | .request (.markExecuted _ _), w => (.ok advanced, w)
  | call, w => saleAnswer wholeSale call w

def runProgram : Program (desk ℚ) (Except ExecError (ExecutionResult ℚ) × Switch) :=
  (executeRun saleStage ⟨1⟩).start idle

/-- Run 1 as it was anchored, without anything else. -/
def anchoredTables : RunTables ℚ Unit := { Sink.noTables with runs := [(Sink.runAt .anchored).toRunRow] }

def executedTables : RunTables ℚ Unit := (Store.advanceToExecuted anchoredTables ⟨1⟩ ⟨0, 0⟩).1

/-- A manual halt of run 1. -/
def manualEvent : KillSwitchEvent ℚ := ⟨⟨1⟩, ⟨0, 0⟩, .manual, none, none, [], false, nofun⟩

/-- The tables once that halt is recorded. -/
def haltedTables : RunTables ℚ Unit :=
  match Store.recordHalt (fun _ => Sink.zeroHex) Sink.noJson anchoredTables manualEvent with
  | .ok (db, _) => db
  | .error _ => Sink.noTables

/-- What happens before run 1 is advanced. -/
def runStart (advanced : Bool) : Trace ℚ := (runProgram.trace (runAnswer advanced) ⟨false, []⟩).take 32

/-- The run over the tables as they were anchored, until its row is to be advanced. -/
def runSeen (advanced : Bool) (before after : RunTables ℚ Unit) : List (Seen ℚ Unit) :=
  ((runStart advanced).map fun event => ⟨event, anchoredTables, anchoredTables⟩) ++
    [⟨returned (.markExecuted ⟨1⟩ ⟨0, 0⟩) advanced, before, after⟩]

section Seen
variable {before after : RunTables ℚ Unit} {advanced : Bool}

theorem run_split : runProgram.trace (runAnswer advanced) ⟨false, []⟩ =
    runStart advanced ++ [returned (.markExecuted ⟨1⟩ ⟨0, 0⟩) advanced] := by
  cases advanced with
  | true => with_unfolding_all rfl
  | false => with_unfolding_all rfl

/-- The run ends with a result that says EXECUTED. -/
theorem runs_runSeen : ∃ result, runProgram.Runs ((runSeen advanced before after).map Seen.event)
    (.done (.ok result, idle)) ∧ result.status = .executed := by
  have hevents : (runSeen advanced before after).map Seen.event = runProgram.trace (runAnswer advanced) ⟨false, []⟩ := by
    rw [run_split]
    simp [runSeen, Function.comp_def]
  have hresult : ∃ result, (runProgram.exec (runAnswer advanced) ⟨false, []⟩).1 = (.ok result, idle) ∧
      result.status = .executed := by
    cases advanced with
    | true => exact ⟨_, by with_unfolding_all rfl, rfl⟩
    | false => exact ⟨_, by with_unfolding_all rfl, rfl⟩
  obtain ⟨result, hexec, hexecuted⟩ := hresult
  refine ⟨result, ?_, hexecuted⟩
  rw [hevents, ← hexec]
  exact Program.runs_trace _ _ _

theorem unmarked_runStart : Unmarked (runStart advanced) := by
  obtain ⟨result, hruns, -⟩ : ∃ result, runProgram.Runs ((runSeen advanced anchoredTables anchoredTables).map Seen.event)
      (.done (.ok result, idle)) ∧ result.status = .executed := runs_runSeen
  have hreports : Reports ⟨1⟩ result ((runSeen advanced anchoredTables anchoredTables).map Seen.event) :=
    executeRun_meets.of_runs_done hruns
  have hevents : (runSeen advanced anchoredTables anchoredTables).map Seen.event =
      runStart advanced ++ [returned (.markExecuted ⟨1⟩ ⟨0, 0⟩) advanced] := by
    simp [runSeen, Function.comp_def]
  rw [hevents] at hreports
  rcases hreports with ⟨hunmarked, -⟩ | ⟨past, endedAt, b, hsplit, hunmarked, -⟩
  · exact absurd trivial (hunmarked _ (List.mem_append_right _ (List.mem_singleton_self _)))
  · rwa [(List.append_inj' hsplit rfl).1]

theorem find_anchored {id : UUID} (hid : id ≠ ⟨1⟩) : anchoredTables.run? id = none := by
  simp [anchoredTables, RunTables.run?, KeyedTable.find, Sink.runAt, Ne.symm hid]

theorem loadRun_anchored {c : StoreCodec} (hc : c.sessionOffset 0 = 0) :
    Store.loadRun c anchoredTables ⟨1⟩ = .ok (some (Sink.runAt .anchored)) := by
  have hrow : Store.readRun c (Sink.runAt .anchored).toRunRow = (Sink.runAt .anchored).toRunRow := by
    simp [Store.readRun, StoreCodec.timestamptz, Sink.runAt, hc]
  have hfind : anchoredTables.run? ⟨1⟩ = some (Sink.runAt .anchored).toRunRow := rfl
  unfold Store.loadRun
  rw [hfind]
  dsimp only
  rw [dif_pos (hrow ▸ (Sink.runAt .anchored).valid)]
  simp only [hrow]

variable (before after advanced) in
/-- The store answers from the tables. -/
theorem answered_runSeen {c : StoreCodec} (hc : c.sessionOffset 0 = 0)
    (hmark : Store.advanceToExecuted before ⟨1⟩ ⟨0, 0⟩ = (after, advanced)) :
    ∀ x ∈ runSeen advanced before after, Answered c x := by
  intro x hx
  rcases List.mem_append.mp hx with hx | hx
  · obtain ⟨event, hevent, rfl⟩ := List.mem_map.mp hx
    obtain ⟨w, hreply⟩ := Program.mem_trace (I := desk ℚ) (W := Sale) (runAnswer advanced) (List.mem_of_mem_take hevent)
    unfold Answered
    split
    · next runId found heq =>
      dsimp only at heq
      subst heq
      have hfound : found = if runId = ⟨1⟩ then some (Sink.runAt .anchored) else none := Except.ok.inj hreply
      refine ⟨rfl, ?_⟩
      rw [hfound]
      by_cases hid : runId = ⟨1⟩
      · subst hid
        exact loadRun_anchored hc
      · rw [if_neg hid, Store.loadRun, find_anchored hid]
    · next runId endedAt advanced heq =>
      dsimp only at heq
      subst heq
      exact absurd trivial (unmarked_runStart _ hevent)
    · trivial
  · obtain rfl := List.mem_singleton.mp hx
    exact hmark

end Seen

/-- The store advanced the run, and the result says so. -/
theorem reported_status_sale : ∃ result, result.status = .executed ∧
    Truthful ⟨1⟩ result (runSeen true anchoredTables executedTables) := by
  obtain ⟨result, hruns, hexecuted⟩ : ∃ result, runProgram.Runs
      ((runSeen true anchoredTables executedTables).map Seen.event) (.done (.ok result, idle)) ∧ result.status = .executed :=
    runs_runSeen
  have hanswered := answered_runSeen anchoredTables executedTables true (c := utcCodec) rfl rfl
  refine ⟨result, hexecuted, (reported_status_iff utcCodec saleStage ⟨1⟩ idle idle _ result hanswered hruns).mpr ?_⟩
  intro x hx hmarks
  rcases List.mem_append.mp hx with hx | hx
  · obtain ⟨event, hevent, rfl⟩ := List.mem_map.mp hx
    exact absurd hmarks (unmarked_runStart _ hevent)
  · obtain rfl := List.mem_singleton.mp hx
    exact Or.inl rfl

/-- A manual halt is recorded after the last look at the switch: the run is PARTIAL, and the result says EXECUTED. -/
theorem halted_reported_executed : ¬∀ (c : StoreCodec) (sha256 : String → Sha256Hex) (json : AuditJson ℚ)
    (e : Stage ℚ String OpenTimestamps.Bytes) (runId : UUID) (s s' : Switch) (seen : List (Seen ℚ Unit))
    (result : ExecutionResult ℚ), (∀ x ∈ seen, Answered c x) → Interleaved sha256 json runId seen →
    ((executeRun e runId).start s).Runs (seen.map Seen.event) (.done (.ok result, s')) → Truthful runId result seen := by
  intro h
  obtain ⟨result, hruns, hexecuted⟩ : ∃ result, runProgram.Runs
      ((runSeen false haltedTables haltedTables).map Seen.event) (.done (.ok result, idle)) ∧ result.status = .executed :=
    runs_runSeen
  have hanswered := answered_runSeen haltedTables haltedTables false (c := utcCodec) rfl rfl
  have hrecorded : Store.recordHalt (fun _ => Sink.zeroHex) Sink.noJson anchoredTables manualEvent =
      .ok (haltedTables, true) := by
    with_unfolding_all rfl
  have hinterleaved : Interleaved (fun _ => Sink.zeroHex) Sink.noJson ⟨1⟩ (runSeen false haltedTables haltedTables) := by
    intro past x y rest hsplit
    have hlast : x ∈ (runStart false).map fun event => ⟨event, anchoredTables, anchoredTables⟩ := by
      have hinit := congrArg List.dropLast hsplit
      rw [runSeen, List.dropLast_concat, List.dropLast_append_of_ne_nil (List.cons_ne_nil _ _),
        List.dropLast_cons_of_ne_nil (List.cons_ne_nil _ _)] at hinit
      rw [hinit]
      exact List.mem_append_right past List.mem_cons_self
    obtain ⟨event, -, rfl⟩ := List.mem_map.mp hlast
    have hy : y ∈ runSeen false haltedTables haltedTables := hsplit ▸ by simp
    rcases List.mem_append.mp hy with hy | hy
    · obtain ⟨event', -, rfl⟩ := List.mem_map.mp hy
      exact Or.inl rfl
    · obtain rfl := List.mem_singleton.mp hy
      exact Or.inr ⟨manualEvent, true, rfl, rfl, hrecorded⟩
  have htruthful := h utcCodec _ _ saleStage ⟨1⟩ idle idle _ result hanswered hinterleaved hruns
  have hstored := htruthful.unapplied _ (List.mem_append_right _ (List.mem_singleton_self _)) ⟨0, 0⟩ rfl
  rw [hexecuted] at hstored
  have hstopped : haltedTables.status? ⟨1⟩ = some .partialRun := by
    with_unfolding_all rfl
  rw [hstopped] at hstored
  cases hstored

end ExecutionStage
end AsymmetricCommittee
