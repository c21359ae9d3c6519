import AsymmetricCommittee.Theorems.PageWalks
import AsymmetricCommittee.Theorems.ReferenceWorkers
import AsymmetricCommittee.Theorems.RunStatus

/-! What holds of the reference tables in every run of the workers, however their steps fall between each other: rows are borne
    out and stay, no write is refused, a halt is pending while a symbol lacks its mark, and a capture settles. -/

namespace AsymmetricCommittee
namespace ReferenceCapture
open Reference ReferenceRules Store

variable {e : Service} {n : Nat} {w w' : World} {s s' : Pool captureDesk World}

/-! ### The tables grow -/

/-- Nothing that was stored is changed or removed. -/
structure Kept (t t' : ReferenceTables) : Prop where
  executionReferences : t.executionReferences <+: t'.executionReferences
  symbolSets : t.symbolSets <+: t'.symbolSets
  haltReferences : t.haltReferences <+: t'.haltReferences

theorem Kept.refl (t : ReferenceTables) : Kept t t := ⟨List.prefix_refl _, List.prefix_refl _, List.prefix_refl _⟩

theorem Kept.trans {t t' t'' : ReferenceTables} (h : Kept t t') (h' : Kept t' t'') : Kept t t'' :=
  ⟨h.executionReferences.trans h'.executionReferences, h.symbolSets.trans h'.symbolSets,
    h.haltReferences.trans h'.haltReferences⟩

theorem prefix_of_written {ρ κ : Type} [DecidableEq κ] {key : ρ → κ} {columns : List (Column ρ)} {t t' rows : List ρ} {m : Nat}
    (h : insertReferences key columns t rows = .ok (t', m)) : t <+: t' := by
  rw [insertReferences_eq_ok h]
  exact KeyedTable.prefix_insertAll t rows

theorem kept_of_effect {c : CaptureCall} {r : c.Reply} (h : Effect n w c r w') : Kept w.tables w'.tables := by
  have hsame (hw : w' = w) : Kept w.tables w'.tables := by
    rw [hw]
    exact Kept.refl _
  cases c with
  | clock => exact hsame h.2
  | request q =>
    cases q with
    | recordExecutionReferences rows =>
      rcases h with h | ⟨-, h⟩
      · exact hsame h.2
      · unfold Writes at h
        split at h
        · exact hsame h.2
        · next hwritten =>
          rw [h.2]
          exact ⟨prefix_of_written hwritten, List.prefix_refl _, List.prefix_refl _⟩
    | recordHaltSymbolSet symbolSet =>
      rcases h with h | ⟨-, h⟩
      · exact hsame h.2
      · unfold Writes at h
        split at h
        · exact hsame h.2
        · next hwritten =>
          rw [h.2]
          exact ⟨List.prefix_refl _, prefix_of_written hwritten, List.prefix_refl _⟩
    | recordHaltReferences rows =>
      rcases h with h | ⟨-, h⟩
      · exact hsame h.2
      · unfold Writes at h
        split at h
        · exact hsame h.2
        · next hwritten =>
          rw [h.2]
          exact ⟨List.prefix_refl _, List.prefix_refl _, prefix_of_written hwritten⟩
    | tryLock runId stage =>
      rcases h with h | ⟨-, h⟩
      · exact hsame h.2
      · split at h
        · rw [h.2]
          exact Kept.refl _
        · exact hsame h.2
    | unlock runId stage =>
      rcases h with h | h
      · exact hsame h.2
      · rw [h.2]
        exact Kept.refl _
    | loadRun runId => exact hsame h.2
    | executionReferences runId => exact hsame h.2
    | haltSymbolSet runId trigger => exact hsame h.2
    | haltReferences runId trigger => exact hsame h.2
    | _ => exact hsame h

theorem kept_of_step (h : Pool.Step (workers e) s s') : Kept s.world.tables s'.world.tables := by
  cases h with
  | move hmove =>
    cases hmove with
    | tick t ht => exact Kept.refl _
    | lose n => exact Kept.refl _
  | call hp hans =>
    obtain ⟨v, heffect, rfl⟩ := hans
    exact (kept_of_effect heffect : Kept s.world.tables v.tables)
  | start hn hstart => exact Kept.refl _
  | stop n => exact Kept.refl _

theorem kept_of_reaches (h : Pool.Reaches (workers e) s s') : Kept s.world.tables s'.world.tables := by
  induction h with
  | refl => exact Kept.refl _
  | tail _ hstep ih => exact ih.trans (kept_of_step hstep)

/-! ### Every run of the workers -/

/-- However many tasks are at work, every stored reference rests on what one worker was replied, a symbol of a run has at most
    one, and whatever happens next leaves the stored rows as they are. -/
theorem references_justified (e : Service) (clock : Int) (s s' : Pool captureDesk World)
    (hreached : Pool.Reaches (workers e) (Pool.idle (World.opened clock)) s) (hlater : Pool.Reaches (workers e) s s') :
    (∀ r ∈ s.world.tables.executionReferences, Justified e s.world.log r ∧ r.availableAt.instant ≤ s.world.clock) ∧
    KeyedTable.Unique executionReferenceKey s.world.tables.executionReferences ∧ Kept s.world.tables s'.world.tables := by
  have hi := (good_reached hreached).world
  exact ⟨fun r hr => ⟨hi.justified r hr, hi.past r hr⟩, hi.references, kept_of_reaches hlater⟩

/-- A worker that has its session never writes what is stored already: every row of its call is new. -/
theorem writes_never_conflict (e : Service) (clock : Int) (s : Pool captureDesk World) (n : Nat)
    (hreached : Pool.Reaches (workers e) (Pool.idle (World.opened clock)) s) (hsession : ¬s.world.locks.lost n) :
    (∀ rows next, s.procs n = some (.call (.request (.recordExecutionReferences rows)) next) →
      insertReferences executionReferenceKey executionReferenceColumns s.world.tables.executionReferences rows =
        .ok (s.world.tables.executionReferences ++ rows, rows.length)) ∧
    (∀ symbolSet next, s.procs n = some (.call (.request (.recordHaltSymbolSet symbolSet)) next) →
      insertReferences symbolSetKey symbolSetColumns s.world.tables.symbolSets [symbolSet] =
        .ok (s.world.tables.symbolSets ++ [symbolSet], 1)) ∧
    ∀ rows next, s.procs n = some (.call (.request (.recordHaltReferences rows)) next) →
      insertReferences haltReferenceKey haltReferenceColumns s.world.tables.haltReferences rows =
        .ok (s.world.tables.haltReferences ++ rows, rows.length) := by
  have hgood := good_reached hreached
  refine ⟨fun rows next hp => ?_, fun symbolSet next hp => ?_, fun rows next hp => ?_⟩
  · have hallowed : Allowed e n s.world (.request (.recordExecutionReferences rows)) := hgood.allowed (workers_sound e) hp
    obtain ⟨hunique, hrows⟩ := hallowed.resolve_left hsession
    exact insertReferences_of_fresh executionReferenceColumns_same (fun r hr => (hrows r hr).1) hunique
  · have hallowed : Allowed e n s.world (.request (.recordHaltSymbolSet symbolSet)) := hgood.allowed (workers_sound e) hp
    have hfresh := (hallowed.resolve_left hsession).1
    refine insertReferences_of_fresh symbolSetColumns_same (fun r hr => ?_) (List.nodup_singleton _)
    rw [List.mem_singleton.mp hr]
    exact hfresh
  · have hallowed : Allowed e n s.world (.request (.recordHaltReferences rows)) := hgood.allowed (workers_sound e) hp
    obtain ⟨hunique, hrows⟩ := hallowed.resolve_left hsession
    exact insertReferences_of_fresh haltReferenceColumns_same (fun r hr => (hrows r hr).1) hunique

/-! ### A first capture -/

section First

/-- A service whose waits are a microsecond. -/
def firstService : Service where
  sha256 _ := Sink.zeroHex
  et _ := 0
  config := ⟨1, 1, 1, one_pos, one_pos, one_pos⟩
  rebalance := ⟨0, Nat.zero_le _⟩
  configHash := Sink.zeroHex
  providerMap := ⟨[]⟩

/-- A store of one committed run, and a calendar without coverage. -/
def firstReply : (c : CaptureCall) → World → c.Reply
  | .clock, w => ⟨w.clock, 0⟩
  | .request .listRuns, _ => .ok [Sink.runAt .committed]
  | .request (.loadRun runId), _ => .ok (if runId = ⟨1⟩ then some (Sink.runAt .committed) else none)
  | .request (.loadCommittedAt _), _ => .ok (some ⟨0, 0⟩)
  | .request (.loadBook _), _ => .ok none
  | .request (.members _), _ => .ok []
  | .request (.securities _), _ => .ok []
  | .request .referenceInstruments, _ => .ok [Pages.spy]
  | .request (.executionReferences runId), w => .ok (Store.executionReferences w.tables runId)
  | .request (.tradingCalendar _), _ => .error (.coverage (.uncovered 0))
  | .request (.recordExecutionReferences rows), w =>
    match insertReferences executionReferenceKey executionReferenceColumns w.tables.executionReferences rows with
    | .error column => .error (.immutableConflict column)
    | .ok (_, m) => .ok m
  | .request (.tryLock runId stage), w => .ok (decide (w.locks.Grantable 0 (runId, stage)))
  | .request _, _ => .error .raised

/-- What such a call leaves in the store. -/
def firstWorld : CaptureCall → World → World
  | .request (.recordExecutionReferences rows), w =>
    match insertReferences executionReferenceKey executionReferenceColumns w.tables.executionReferences rows with
    | .error _ => w
    | .ok (t, _) => { w with tables := { w.tables with executionReferences := t } }
  | .request (.tryLock runId stage), w =>
    if w.locks.Grantable 0 (runId, stage) then { w with locks := w.locks.take 0 (runId, stage) }
    else w
  | _, w => w

def firstAnswer (c : CaptureCall) (w : World) : c.Reply × World :=
  (firstReply c w, { firstWorld c w with log := w.log ++ [(0, ⟨c, firstReply c w⟩)] })

theorem firstAnswer_lost (c : CaptureCall) (h : ¬w.locks.lost 0) : ¬(firstAnswer c w).2.locks.lost 0 := by
  have hsame : (firstWorld c w).locks.lost = w.locks.lost := by
    unfold firstWorld
    split
    · split
      · rfl
      · rfl
    · split
      · rfl
      · rfl
    · rfl
  show ¬(firstWorld c w).locks.lost 0
  rw [hsame]
  exact h

theorem firstAnswer_answers (c : CaptureCall) (h : ¬w.locks.lost 0) :
    (workers firstService).answers 0 c w (firstAnswer c w).1 (firstAnswer c w).2 := by
  refine ⟨firstWorld c w, ?_, rfl⟩
  cases c with
  | clock => exact ⟨rfl, rfl⟩
  | request q =>
    cases q with
    | loadRun runId =>
      refine ⟨fun run hrun => ?_, rfl⟩
      simp only [firstAnswer, firstReply] at hrun
      split at hrun
      · next hid =>
        cases hrun
        exact hid.symm
      · cases hrun
    | executionReferences runId => exact ⟨Or.inr rfl, rfl⟩
    | haltSymbolSet runId trigger => exact ⟨Or.inl rfl, rfl⟩
    | haltReferences runId trigger => exact ⟨Or.inl rfl, rfl⟩
    | recordHaltSymbolSet symbolSet => exact Or.inl ⟨rfl, rfl⟩
    | recordHaltReferences rows => exact Or.inl ⟨rfl, rfl⟩
    | recordExecutionReferences rows =>
      refine Or.inr ⟨h, ?_⟩
      cases hwritten : insertReferences executionReferenceKey executionReferenceColumns w.tables.executionReferences rows with
      | error column => simp [firstAnswer, firstReply, firstWorld, Writes, hwritten]
      | ok written => simp [firstAnswer, firstReply, firstWorld, Writes, hwritten]
    | tryLock runId stage =>
      refine Or.inr ⟨h, ?_⟩
      simp only [firstAnswer, firstReply, firstWorld]
      split
      · next hfree => exact ⟨congrArg Except.ok (decide_eq_true hfree), rfl⟩
      · next hfree => exact ⟨congrArg Except.ok (decide_eq_false hfree), rfl⟩
    | unlock runId stage => exact Or.inl ⟨rfl, rfl⟩
    | _ => rfl

def firstPoll : Program captureDesk Unit := ((captureDueReferences firstService).start ⟨0, []⟩).void

/-- The pool after a number of calls of one poll. -/
theorem first_reached (calls : Nat) : ∃ s : Pool captureDesk World,
    Pool.Reaches (workers firstService) (Pool.idle (World.opened 10)) s ∧
    s.world = firstPoll.after firstAnswer calls (World.opened 10) ∧
    s.procs 0 = some (firstPoll.left firstAnswer calls (World.opened 10)) := by
  have hstart : (workers firstService).starts 0 (World.opened 10) firstPoll := .capture id fun _ h => by cases h
  have h := Relation.ReflTransGen.single (Pool.Step.start (s := Pool.idle (World.opened 10)) rfl hstart)
  have h := h.trans (Pool.reaches_left_of (P := fun w => ¬w.locks.lost 0) (fun c _ => firstAnswer_lost c)
    (fun c _ => firstAnswer_answers c) (fun hlost => hlost) (Pool.procs_set _ 0 _) calls)
  exact ⟨_, h, rfl, Pool.procs_set _ 0 _⟩

/-- The rows that a program is about to write. -/
def nextRows : Program captureDesk Unit → Option (List ExecutionReference)
  | .call (.request (.recordExecutionReferences rows)) _ => some rows
  | _ => none

theorem call_of_nextRows {p : Program captureDesk Unit} {rows : List ExecutionReference} (h : nextRows p = some rows) :
    ∃ next, p = .call (.request (.recordExecutionReferences rows)) next := by
  unfold nextRows at h
  split at h
  · next rows' next =>
    cases h
    exact ⟨next, rfl⟩
  · cases h

theorem first_run : (firstPoll.after firstAnswer 12 (World.opened 10)).tables.executionReferences.map (·.symbolRef) = [Pages.spy] ∧
    (firstPoll.after firstAnswer 12 (World.opened 10)).tables.symbolSets = [] ∧
    (nextRows (firstPoll.left firstAnswer 11 (World.opened 10))).map (·.map (·.symbolRef)) = some [Pages.spy] := by
  decide +kernel

/-- The poll stores the row that no calendar covers the day. -/
theorem references_justified_first : ∃ s : Pool captureDesk World,
    s.world.tables.executionReferences.map (·.symbolRef) = [Pages.spy] ∧
    ∀ r ∈ s.world.tables.executionReferences, Justified firstService s.world.log r := by
  obtain ⟨s, hreached, hworld, -⟩ := first_reached 12
  refine ⟨s, ?_, fun r hr => ((references_justified firstService 10 s s hreached .refl).1 r hr).1⟩
  rw [hworld]
  exact first_run.1

/-- The row is new when it is written. -/
theorem writes_never_conflict_first : ∃ (s : Pool captureDesk World) (rows : List ExecutionReference),
    rows.map (·.symbolRef) = [Pages.spy] ∧
    insertReferences executionReferenceKey executionReferenceColumns s.world.tables.executionReferences rows =
      .ok (s.world.tables.executionReferences ++ rows, rows.length) := by
  obtain ⟨s, hreached, hworld, hproc⟩ := first_reached 11
  obtain ⟨rows, hrows, hsymbols⟩ := Option.map_eq_some_iff.mp first_run.2.2
  obtain ⟨next, hnext⟩ := call_of_nextRows hrows
  have hlost : ¬s.world.locks.lost 0 := by
    rw [hworld]
    exact id
  exact ⟨s, rows, hsymbols, (writes_never_conflict firstService 10 s 0 hreached hlost).1 rows next (hproc.trans (congrArg some hnext))⟩

end First

/-! ### Pending halts -/

/-- The marks of a halt are of symbols of its set, one for each. -/
theorem marks_subperm {symbolSet : HaltSymbolSet} (hi : Inv e w) (hmem : symbolSet ∈ w.tables.symbolSets) :
    ((Store.haltReferences w.tables symbolSet.runId symbolSet.trigger).map (·.symbolRef)).Subperm symbolSet.symbols := by
  refine List.subperm_of_subset ?_ fun t ht => ?_
  · have hkeys : ((w.tables.haltReferences.filter fun r => decide (r.runId = symbolSet.runId ∧ r.trigger = symbolSet.trigger)).map
        haltReferenceKey).Nodup := hi.haltReferences.sublist (List.filter_sublist.map _)
    have hsymbols : ((w.tables.haltReferences.filter fun r =>
        decide (r.runId = symbolSet.runId ∧ r.trigger = symbolSet.trigger)).map (·.symbolRef)).Nodup := by
      rw [List.Nodup, List.pairwise_map] at hkeys ⊢
      refine hkeys.imp_of_mem fun {a b} ha hb hne heq => hne ?_
      have ha' := of_decide_eq_true (List.mem_filter.mp ha).2
      have hb' := of_decide_eq_true (List.mem_filter.mp hb).2
      rw [haltReferenceKey, haltReferenceKey, ha'.1, ha'.2, hb'.1, hb'.2, heq]
    exact ((List.perm_insertionSort _ _).map _).nodup_iff.mpr hsymbols
  · obtain ⟨r, hr, rfl⟩ := List.mem_map.mp ht
    obtain ⟨hmark, hrun, htrigger⟩ := mem_haltReferences.mp hr
    obtain ⟨other, hother, hrun', htrigger', hnamed⟩ := hi.marks r hmark
    -- the set of the mark is the set of the halt
    have hsame : other = symbolSet := by
      have hfound := (KeyedTable.find_eq_some (k := symbolSetKey symbolSet) hi.symbolSets).mpr ⟨hmem, rfl⟩
      have hfound' := (KeyedTable.find_eq_some (k := symbolSetKey symbolSet) hi.symbolSets).mpr
        ⟨hother, Prod.ext (hrun'.trans hrun) (htrigger'.trans htrigger)⟩
      exact Option.some.inj (hfound'.symm.trans hfound)
    exact hsame ▸ hnamed

/-- Fewer marks than symbols is a symbol without a mark. -/
theorem unmarked_of_count {symbolSet : HaltSymbolSet} (hi : Inv e w) (hmem : symbolSet ∈ w.tables.symbolSets) :
    (Store.haltReferences w.tables symbolSet.runId symbolSet.trigger).length < symbolSet.symbolCount ↔
      ∃ t ∈ symbolSet.symbols, ∀ r ∈ w.tables.haltReferences, r.runId = symbolSet.runId → r.trigger = symbolSet.trigger →
        r.symbolRef ≠ t := by
  have hsub := marks_subperm hi hmem
  have hnodup : symbolSet.symbols.Nodup :=
    List.Pairwise.of_map _ (fun a b hlt heq => hlt.ne (congrArg Subtype.val heq)) symbolSet.sorted
  rw [symbolSet.counted]
  constructor
  · intro hlt
    by_contra hall
    push Not at hall
    have hle : symbolSet.symbols.Subperm
        ((Store.haltReferences w.tables symbolSet.runId symbolSet.trigger).map (·.symbolRef)) := by
      refine List.subperm_of_subset hnodup fun t ht => ?_
      obtain ⟨r, hr, hrun, htrigger, rfl⟩ := hall t ht
      exact List.mem_map_of_mem (mem_haltReferences.mpr ⟨hr, hrun, htrigger⟩)
    have := hle.length_le
    rw [List.length_map] at this
    omega
  · rintro ⟨t, ht, hno⟩
    have hlen := hsub.length_le
    rw [List.length_map] at hlen
    refine lt_of_le_of_ne hlen fun heq => ?_
    have hperm := hsub.perm_of_length_le (by rw [List.length_map, heq])
    obtain ⟨r, hr, hrt⟩ := List.mem_map.mp (hperm.mem_iff.mpr ht)
    obtain ⟨hmark, hrun, htrigger⟩ := mem_haltReferences.mp hr
    exact hno r hmark hrun htrigger hrt

/-- Counting tells what a sweep has left: in every run of the workers a request is pending exactly while no symbols are stored
    for it, or one of them lacks its mark. -/
theorem pending_iff_unmarked (e : Service) (clock : Int) (s : Pool captureDesk World)
    (hreached : Pool.Reaches (workers e) (Pool.idle (World.opened clock)) s) (requests : List HaltReferenceRequest)
    (req : HaltReferenceRequest) :
    req ∈ pendingHaltRequests s.world.tables requests ↔ req ∈ requests ∧
      ∀ symbolSet ∈ s.world.tables.symbolSets, symbolSet.runId = req.runId → symbolSet.trigger = req.trigger →
        ∃ t ∈ symbolSet.symbols, ∀ r ∈ s.world.tables.haltReferences, r.runId = req.runId → r.trigger = req.trigger →
          r.symbolRef ≠ t := by
  have hi := (good_reached hreached).world
  rw [pendingHaltRequests, List.mem_insertionSort, List.mem_filter]
  refine and_congr_right fun _ => ?_
  cases hfound : Store.haltSymbolSet s.world.tables req.runId req.trigger with
  | none =>
    simp only [true_iff]
    intro symbolSet hmem hrun htrigger
    exact absurd (Prod.ext hrun htrigger) (KeyedTable.find_eq_none.mp hfound symbolSet hmem)
  | some symbolSet =>
    obtain ⟨hmem, hkey⟩ := KeyedTable.find_some hfound
    obtain ⟨hrun, htrigger⟩ := Prod.mk.inj hkey
    dsimp only
    rw [decide_eq_true_eq, ← hrun, ← htrigger, unmarked_of_count hi hmem]
    constructor
    · intro h other hother hrun' htrigger'
      have hsame : other = symbolSet := by
        have hother' := (KeyedTable.find_eq_some (k := (req.runId, req.trigger)) hi.symbolSets).mpr
          ⟨hother, Prod.ext (hrun'.trans hrun) (htrigger'.trans htrigger)⟩
        exact Option.some.inj (hother'.symm.trans hfound)
      rw [hsame]
      exact h
    · intro h
      exact h symbolSet hmem rfl rfl

/-- A halt of run 1. -/
def firstHalt : HaltReferenceRequest := ⟨⟨1⟩, .manual, ⟨5, 0⟩, .symbolsPending, ⟨5, 0⟩, haltVersion⟩

/-- Its symbols have not been looked for. -/
theorem pending_iff_unmarked_first : ∃ s : Pool captureDesk World,
    s.world.tables.executionReferences.map (·.symbolRef) = [Pages.spy] ∧
    firstHalt ∈ pendingHaltRequests s.world.tables [firstHalt] := by
  obtain ⟨s, hreached, hworld, -⟩ := first_reached 12
  refine ⟨s, ?_, ?_⟩
  · rw [hworld]
    exact first_run.1
  · refine (pending_iff_unmarked firstService 10 s hreached [firstHalt] firstHalt).mpr ⟨List.mem_singleton_self _, fun symbolSet hmem => ?_⟩
    rw [hworld, first_run.2.1] at hmem
    cases hmem

/-! ### A capture settles -/

/-- Under its lock, whatever the other workers do meanwhile, a live capture and a backtest build may make every call they make;
    and when they return, from what they were replied since they began the run has no commitment, or every required symbol has
    its row, or the calendar of the time leaves them to wait. -/
theorem captures_settle (e : Service) (n : Nat) (runId : UUID) (now : AwareDatetime) (w : World) (hheld : Held n runId w)
    (hnow : now.instant ≤ w.clock) :
    Ends e n w.log.length (captureLive e runId now : Capture Poll CaptureResult)
      (fun x w' => ∀ result, x = .ok result → Settled e n w.log.length .live runId now w') w ∧
    Ends e n w.log.length (buildBacktest e runId now : Capture Poll CaptureResult)
      (fun x w' => ∀ result, x = .ok result → Settled e n w.log.length .backtest runId now w') w :=
  ⟨ends_captureLive hheld hnow, ends_buildBacktest hheld hnow⟩

/-- Worker 0 has every lock of an empty store. -/
def firstLocked : World := { World.opened 10 with locks := ⟨fun _ => some 0, fun _ => False⟩ }

theorem captures_settle_first :
    Ends firstService 0 0 (captureLive firstService ⟨1⟩ ⟨10, 0⟩ : Capture Poll CaptureResult)
      (fun x w' => ∀ result, x = .ok result → Settled firstService 0 0 .live ⟨1⟩ ⟨10, 0⟩ w') firstLocked :=
  (captures_settle firstService 0 ⟨1⟩ ⟨10, 0⟩ firstLocked (Or.inr rfl) le_rfl).1

end ReferenceCapture
end AsymmetricCommittee
