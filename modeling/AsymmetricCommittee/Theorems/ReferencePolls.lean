import AsymmetricCommittee.Lib.Locks
import AsymmetricCommittee.Orchestration.ReferenceCapture
import AsymmetricCommittee.Store.ReferenceRows

/-! Reference workers side by side. Any number of polls, backtest builders and halt sweeps are at work on one store, in every
    order, and each may stop anywhere; the store grants a lock to one session at a time. -/

namespace AsymmetricCommittee
namespace ReferenceCapture
open Reference ReferenceRules Store

/-- The store and what happened at it: the clock, the tables, who has each lock, and every call with its reply. -/
structure World where
  clock : Int
  tables : ReferenceTables
  locks : Locks (UUID × String)
  log : List (Nat × Event captureDesk)

/-- Time passes, and the session of a worker ends: its locks are free. -/
inductive Moves (w : World) : World → Prop
  | tick (t : Int) (h : w.clock ≤ t) : Moves w { w with clock := t }
  | lose (n : Nat) : Moves w
      { w with locks := w.locks.lose n }

/-- What a write does that may fail before it is done, or whose reply may be lost. -/
def Writes {ρ : Type} (w : World) (written : Except String (List ρ × Nat)) (put : List ρ → World)
    (r : Except CaptureError Nat) (v : World) : Prop :=
  match written with
  | .error column => r = .error (.immutableConflict column) ∧ v = w
  | .ok (rows, n) => (r = .ok n ∨ r = .error .raised) ∧ v = put rows

/-- What a call does to the store and is replied. A worker that has lost its session writes nothing; what is read from
    elsewhere may be anything. -/
def Effect (n : Nat) (w : World) : (c : CaptureCall) → c.Reply → World → Prop
  | .clock, r, v => r.instant = w.clock ∧ v = w
  | .request (.loadRun runId), r, v => (∀ run, r = .ok (some run) → run.runId = runId) ∧ v = w
  | .request (.executionReferences runId), r, v =>
    (r = .error .raised ∨ r = .ok (Store.executionReferences w.tables runId)) ∧ v = w
  | .request (.haltSymbolSet runId trigger), r, v =>
    (r = .error .raised ∨ r = .ok (Store.haltSymbolSet w.tables runId trigger)) ∧ v = w
  | .request (.haltReferences runId trigger), r, v =>
    (r = .error .raised ∨ r = .ok (Store.haltReferences w.tables runId trigger)) ∧ v = w
  | .request (.recordExecutionReferences rows), r, v => r = .error .raised ∧ v = w ∨ ¬w.locks.lost n ∧
    Writes w (insertReferences executionReferenceKey executionReferenceColumns w.tables.executionReferences rows)
      (fun t => { w with tables := { w.tables with executionReferences := t } }) r v
  | .request (.recordHaltSymbolSet symbolSet), r, v => r = .error .raised ∧ v = w ∨ ¬w.locks.lost n ∧
    Writes w (insertReferences symbolSetKey symbolSetColumns w.tables.symbolSets [symbolSet])
      (fun t => { w with tables := { w.tables with symbolSets := t } }) r v
  | .request (.recordHaltReferences rows), r, v => r = .error .raised ∧ v = w ∨ ¬w.locks.lost n ∧
    Writes w (insertReferences haltReferenceKey haltReferenceColumns w.tables.haltReferences rows)
      (fun t => { w with tables := { w.tables with haltReferences := t } }) r v
  | .request (.tryLock runId stage), r, v => r = .error .raised ∧ v = w ∨ ¬w.locks.lost n ∧
    if w.locks.Grantable n (runId, stage) then
      r = .ok true ∧ v = { w with locks := w.locks.take n (runId, stage) }
    else r = .ok false ∧ v = w
  | .request (.unlock runId stage), r, v => r = .error .raised ∧ v = w ∨
    r = .ok () ∧ v = { w with locks := w.locks.release n (runId, stage) }
  | _, _, v => v = w

/-- A call is replied and noted. -/
def Answers (n : Nat) (c : CaptureCall) (w : World) (r : c.Reply) (w' : World) : Prop :=
  ∃ v, Effect n w c r v ∧ w' = { v with log := w.log ++ [(n, ⟨c, r⟩)] }

/-- The tasks of a service. A worker starts with a session that has no locks. -/
inductive Starts (e : Service) (n : Nat) (w : World) : Program captureDesk Unit → Prop
  | capture (hlost : ¬w.locks.lost n) (hlocks : ∀ l, w.locks.holder l ≠ some n) : Starts e n w ((captureDueReferences e).start ⟨0, []⟩).void
  | backtest (runId : UUID) (hlost : ¬w.locks.lost n) (hlocks : ∀ l, w.locks.holder l ≠ some n) :
    Starts e n w ((buildBacktestReferences e runId).start ⟨0, []⟩).void
  | sweep (hlost : ¬w.locks.lost n) (hlocks : ∀ l, w.locks.holder l ≠ some n) : Starts e n w ((sweepHaltReferences e).start ⟨0, []⟩).void

/-- Workers of one service. -/
def workers (e : Service) : Dynamics captureDesk World where
  moves := Moves
  answers := Answers
  starts := Starts e

/-! ### What the rows rest on -/

/-- The worker was replied so. -/
def Replied (log : List (Nat × Event captureDesk)) (n : Nat) (c : CaptureRequest) (r : Except CaptureError c.Value) : Prop :=
  (n, (⟨.request c, r⟩ : Event captureDesk)) ∈ log

section Evidence
variable (e : Service) (log : List (Nat × Event captureDesk)) (n : Nat)

/-- The live rule gave the observation. -/
def Quoted (symbol : Ticker) (now : AwareDatetime) (obs : Observed) : Prop :=
  ∃ quote, Replied log n (.iexQuote symbol) (.ok quote) ∧
    match tightMid quote with
    | some mid => obs = (liveObservation symbol now mid .iexMid).toObserved
    | none => ∃ trade price, Replied log n (.sipLastTrade symbol (now.plus (-sipDelay))) (.ok trade) ∧
        positive? trade.join = some price ∧ obs = (liveObservation symbol now price .sipLast).toObserved

/-- A live observation was made within the grace, or says that the grace is over. -/
def LiveEvidence (symbol : Ticker) (refTime now : AwareDatetime) (obs : Observed) : Prop :=
  (now.instant ≤ refTime.instant + e.config.liveCaptureGrace ∧ Quoted log n symbol now obs) ∨
  (refTime.instant + e.config.liveCaptureGrace < now.instant ∧ obs = (unresolved symbol refTime .noReferencePrice).toObserved)

/-- A backtest observation is resolved from the trades of the session, or says why there are none. -/
def BacktestEvidence (symbol : Ticker) (session : TradingSession) (refTime : AwareDatetime) (obs : Observed) : Prop :=
  (∃ trades, Replied log n (.historicalTrades symbol session.openAt refTime) (.ok trades) ∧
    obs = (resolveBacktest symbol trades session refTime e.providerMap).toObserved) ∨
  (anyValidated e.providerMap = false ∧ obs = (unresolved symbol refTime .providerMappingUnvalidated).toObserved) ∨
  (Replied log n (.historicalTrades symbol session.openAt refTime) (.error .incompleteTrades) ∧
    obs = (unresolved symbol refTime .incompleteTrades).toObserved) ∨
  ∃ other, Replied log n (.historicalTrades other session.openAt refTime) (.error .sipEntitlement) ∧
    obs = (unresolved symbol refTime .sipEntitlement).toObserved

/-- An observation of a mode. -/
def ModeEvidence (mode : RefMode) (symbol : Ticker) (session : TradingSession) (refTime now : AwareDatetime)
    (obs : Observed) : Prop :=
  match mode with
  | .live => LiveEvidence e log n symbol refTime now obs
  | .backtest => BacktestEvidence e log n symbol session refTime obs

/-- The calendar of a time told the reference day. -/
def DayTold (run : RunRecord ℚ) (now : AwareDatetime) (session : TradingSession) (refTime : AwareDatetime) : Prop :=
  ∃ cal, Replied log n (.tradingCalendar now) (.ok cal) ∧
    References.referenceDay e.et e.rebalance cal run.asOf = .ok (session, refTime)

/-- A row on its reference day, from the calendar of its time. -/
def DayEvidence (run : RunRecord ℚ) (r : ExecutionReference) : Prop :=
  ∃ session refTime, DayTold e log n run r.availableAt session refTime ∧ r.refTime = some refTime ∧
    r.sessionDate = some session.sessionDate ∧ refTime.instant ≤ r.availableAt.instant ∧
    ModeEvidence e log n r.mode r.symbolRef session refTime r.availableAt r.toObserved

/-- The calendar told no reference day. -/
def NoDay (run : RunRecord ℚ) : Except CaptureError TradingCalendar → Prop
  | .ok cal => ∃ error, References.referenceDay e.et e.rebalance cal run.asOf = .error error
  | .error (.coverage _) => True
  | .error _ => False

/-- The calendar of a time told no reference day. -/
def DayUntold (run : RunRecord ℚ) (now : AwareDatetime) : Prop :=
  ∃ reply, Replied log n (.tradingCalendar now) reply ∧ NoDay e run reply

/-- A row without a day was stored after the wait, while the calendar told none. -/
def UncoveredEvidence (run : RunRecord ℚ) (committedAt : AwareDatetime) (r : ExecutionReference) : Prop :=
  DayUntold e log n run r.availableAt ∧ committedAt.instant + e.config.calendarCoverageWait ≤ r.availableAt.instant ∧
  r.refTime = none ∧ r.sessionDate = none ∧
  r.toObserved = (unresolved r.symbolRef r.availableAt .calendarUncovered).toObserved

end Evidence

/-- What one worker was replied bears the row out: its run, the commitment, and its reference day or the lack of one. -/
def Justified (e : Service) (log : List (Nat × Event captureDesk)) (r : ExecutionReference) : Prop :=
  ∃ n run committedAt, Replied log n (.loadRun r.runId) (.ok (some run)) ∧ run.runId = r.runId ∧
    (run.mode = .live ↔ r.mode = .live) ∧ Replied log n (.loadCommittedAt r.runId) (.ok (some committedAt)) ∧
    (DayEvidence e log n run r ∨ UncoveredEvidence e log n run committedAt r)

/-! ### What the workers promise each other -/

structure Inv (e : Service) (w : World) : Prop where
  references : KeyedTable.Unique executionReferenceKey w.tables.executionReferences
  symbolSets : KeyedTable.Unique symbolSetKey w.tables.symbolSets
  haltReferences : KeyedTable.Unique haltReferenceKey w.tables.haltReferences
  justified : ∀ r ∈ w.tables.executionReferences, Justified e w.log r
  past : ∀ r ∈ w.tables.executionReferences, r.availableAt.instant ≤ w.clock
  marks : ∀ r ∈ w.tables.haltReferences, ∃ s ∈ w.tables.symbolSets, s.runId = r.runId ∧ s.trigger = r.trigger ∧
    r.symbolRef ∈ s.symbols

/-- The rows that a lock guards are the same. -/
structure Unchanged (l : UUID × String) (w w' : World) : Prop where
  references : l.2 = referencesStage → ∀ r, r.runId = l.1 →
    (r ∈ w'.tables.executionReferences ↔ r ∈ w.tables.executionReferences)
  symbolSets : ∀ trigger, l.2 = haltStage trigger → ∀ s, s.runId = l.1 → s.trigger = trigger →
    (s ∈ w'.tables.symbolSets ↔ s ∈ w.tables.symbolSets)
  haltReferences : ∀ trigger, l.2 = haltStage trigger → ∀ r, r.runId = l.1 → r.trigger = trigger →
    (r ∈ w'.tables.haltReferences ↔ r ∈ w.tables.haltReferences)

/-- What a worker may count on: nothing is removed, and while it has its session the others leave its locks and what they
    guard. -/
structure Rely (n : Nat) (w w' : World) : Prop where
  log : w.log <+: w'.log
  clock : w.clock ≤ w'.clock
  lost : w.locks.lost n → w'.locks.lost n
  references : w.tables.executionReferences <+: w'.tables.executionReferences
  symbolSets : w.tables.symbolSets <+: w'.tables.symbolSets
  held : ∀ l, w.locks.holder l = some n → w'.locks.lost n ∨ w'.locks.holder l = some n ∧ Unchanged l w w'

/-- Rows are written under the lock of their run and trigger, under new keys, and borne out. -/
def Allowed (e : Service) (n : Nat) (w : World) : CaptureCall → Prop
  | .request (.recordExecutionReferences rows) => w.locks.lost n ∨
    KeyedTable.Unique executionReferenceKey rows ∧ ∀ r ∈ rows,
      KeyedTable.find executionReferenceKey w.tables.executionReferences (executionReferenceKey r) = none ∧
      w.locks.holder (r.runId, referencesStage) = some n ∧ Justified e w.log r ∧ r.availableAt.instant ≤ w.clock
  | .request (.recordHaltSymbolSet s) => w.locks.lost n ∨
    KeyedTable.find symbolSetKey w.tables.symbolSets (symbolSetKey s) = none ∧ w.locks.holder (s.runId, haltStage s.trigger) = some n
  | .request (.recordHaltReferences rows) => w.locks.lost n ∨
    KeyedTable.Unique haltReferenceKey rows ∧ ∀ r ∈ rows,
      KeyedTable.find haltReferenceKey w.tables.haltReferences (haltReferenceKey r) = none ∧
      w.locks.holder (r.runId, haltStage r.trigger) = some n ∧
      ∃ s ∈ w.tables.symbolSets, s.runId = r.runId ∧ s.trigger = r.trigger ∧ r.symbolRef ∈ s.symbols
  | _ => True

section Promises
variable {e : Service} {n k : Nat} {w w' w'' : World}

theorem Unchanged.refl (l : UUID × String) (w : World) : Unchanged l w w where
  references _ _ _ := Iff.rfl
  symbolSets _ _ _ _ _ := Iff.rfl
  haltReferences _ _ _ _ _ := Iff.rfl

theorem Unchanged.trans {l : UUID × String} (h : Unchanged l w w') (h' : Unchanged l w' w'') : Unchanged l w w'' where
  references hl r hr := (h'.references hl r hr).trans (h.references hl r hr)
  symbolSets trigger hl s hs ht := (h'.symbolSets trigger hl s hs ht).trans (h.symbolSets trigger hl s hs ht)
  haltReferences trigger hl r hr ht := (h'.haltReferences trigger hl r hr ht).trans (h.haltReferences trigger hl r hr ht)

theorem Rely.refl (n : Nat) (w : World) : Rely n w w :=
  ⟨List.prefix_refl _, le_rfl, id, List.prefix_refl _, List.prefix_refl _, fun l hl => Or.inr ⟨hl, Unchanged.refl l w⟩⟩

theorem Rely.trans (h : Rely n w w') (h' : Rely n w' w'') : Rely n w w'' := by
  refine ⟨h.log.trans h'.log, h.clock.trans h'.clock, fun hl => h'.lost (h.lost hl), h.references.trans h'.references,
    h.symbolSets.trans h'.symbolSets, fun l hl => ?_⟩
  rcases h.held l hl with hlost | ⟨hlock, hsame⟩
  · exact Or.inl (h'.lost hlost)
  · rcases h'.held l hlock with hlost | ⟨hlock', hsame'⟩
    · exact Or.inl hlost
    · exact Or.inr ⟨hlock', hsame.trans hsame'⟩

/-- The promise of one worker. -/
def contract (e : Service) (n : Nat) : Contract captureDesk World where
  inv := Inv e
  rely := Rely n
  allowed c w := Allowed e n w c
  answers := Answers n
  rely_refl := Rely.refl n
  rely_trans _ _ _ := Rely.trans

/-! ### Evidence is kept -/

section Kept
variable {log log' : List (Nat × Event captureDesk)} (hlog : log ⊆ log')
include hlog

theorem Replied.mono {c : CaptureRequest} {r : Except CaptureError c.Value} (h : Replied log n c r) : Replied log' n c r :=
  hlog h

theorem Quoted.mono {symbol : Ticker} {now : AwareDatetime} {obs : Observed} (h : Quoted log n symbol now obs) :
    Quoted log' n symbol now obs := by
  obtain ⟨quote, hquote, h⟩ := h
  refine ⟨quote, hquote.mono hlog, ?_⟩
  split at h
  · exact h
  · obtain ⟨trade, price, htrade, hprice, hobs⟩ := h
    exact ⟨trade, price, htrade.mono hlog, hprice, hobs⟩

theorem ModeEvidence.mono {mode : RefMode} {symbol : Ticker} {session : TradingSession} {refTime now : AwareDatetime}
    {obs : Observed} (h : ModeEvidence e log n mode symbol session refTime now obs) :
    ModeEvidence e log' n mode symbol session refTime now obs := by
  cases mode with
  | live => exact h.imp (fun h => ⟨h.1, h.2.mono hlog⟩) id
  | backtest =>
    rcases h with ⟨trades, htrades, hobs⟩ | h | ⟨hrefused, hobs⟩ | ⟨other, hrefused, hobs⟩
    · exact Or.inl ⟨trades, htrades.mono hlog, hobs⟩
    · exact Or.inr (Or.inl h)
    · exact Or.inr (Or.inr (Or.inl ⟨hrefused.mono hlog, hobs⟩))
    · exact Or.inr (Or.inr (Or.inr ⟨other, hrefused.mono hlog, hobs⟩))

theorem DayTold.mono {run : RunRecord ℚ} {now refTime : AwareDatetime} {session : TradingSession}
    (h : DayTold e log n run now session refTime) : DayTold e log' n run now session refTime := by
  obtain ⟨cal, hcal, hday⟩ := h
  exact ⟨cal, hcal.mono hlog, hday⟩

theorem DayUntold.mono {run : RunRecord ℚ} {now : AwareDatetime} (h : DayUntold e log n run now) : DayUntold e log' n run now := by
  obtain ⟨reply, hreply, hno⟩ := h
  exact ⟨reply, hreply.mono hlog, hno⟩

theorem Justified.mono {r : ExecutionReference} (h : Justified e log r) : Justified e log' r := by
  obtain ⟨n, run, committedAt, hrun, hid, hmode, hcommitted, h⟩ := h
  refine ⟨n, run, committedAt, hrun.mono hlog, hid, hmode, hcommitted.mono hlog, ?_⟩
  rcases h with ⟨session, refTime, hday, href, hdate, hle, hobs⟩ | ⟨hno, hrest⟩
  · exact Or.inl ⟨session, refTime, hday.mono hlog, href, hdate, hle, hobs.mono hlog⟩
  · exact Or.inr ⟨hno.mono hlog, hrest⟩

end Kept

/-! ### Each call keeps the promises -/

theorem Unchanged.of_tables {l : UUID × String} (h : w'.tables = w.tables) : Unchanged l w w' := by
  refine ⟨fun _ _ _ => ?_, fun _ _ _ _ _ => ?_, fun _ _ _ _ _ => ?_⟩
  all_goals rw [h]

/-- A call that leaves the tables, and the locks of a worker. -/
theorem keeps_tables (hi : Inv e w) (hlog : w.log <+: w'.log) (hclock : w.clock ≤ w'.clock) (htables : w'.tables = w.tables) :
    Inv e w' := by
  refine ⟨?_, ?_, ?_, fun r hr => ?_, fun r hr => ?_, fun r hr => ?_⟩
  · rw [htables]
    exact hi.references
  · rw [htables]
    exact hi.symbolSets
  · rw [htables]
    exact hi.haltReferences
  · rw [htables] at hr
    exact (hi.justified r hr).mono hlog.subset
  · rw [htables] at hr
    exact (hi.past r hr).trans hclock
  · rw [htables] at hr ⊢
    exact hi.marks r hr

theorem Rely.of_tables (hlog : w.log <+: w'.log) (hclock : w.clock ≤ w'.clock) (htables : w'.tables = w.tables)
    (hlocks : Locks.Rely k w.locks w'.locks) : Rely k w w' := by
  refine ⟨hlog, hclock, hlocks.lost, ?_, ?_, fun l hl => (hlocks.held l hl).imp id fun h => ⟨h, Unchanged.of_tables htables⟩⟩
  · rw [htables]
  · rw [htables]

/-- A call that only notes what it was replied. -/
theorem keeps_noted {x : Nat × Event captureDesk} (hi : Inv e w) (hw : w' = { w with log := w.log ++ [x] }) :
    Inv e w' ∧ ∀ k, Rely k w w' := by
  subst hw
  have hlog : w.log <+: w.log ++ [x] := List.prefix_append _ _
  exact ⟨keeps_tables hi hlog le_rfl rfl, fun k => Rely.of_tables hlog le_rfl rfl (Locks.Rely.refl k _)⟩

/-- The references of a run are written under its lock. -/
theorem keeps_executionReferences {rows t : List ExecutionReference} {m : Nat} {x : Nat × Event captureDesk} (hi : Inv e w)
    (hallowed : Allowed e n w (.request (.recordExecutionReferences rows))) (hlost : ¬w.locks.lost n)
    (hwritten : insertReferences executionReferenceKey executionReferenceColumns w.tables.executionReferences rows = .ok (t, m))
    (hw : w' = { w with tables := { w.tables with executionReferences := t }, log := w.log ++ [x] }) :
    Inv e w' ∧ ∀ k, k ≠ n → Rely k w w' := by
  obtain ⟨hunique, hrows⟩ := hallowed.resolve_left hlost
  have ht : t = w.tables.executionReferences ++ rows := by
    rw [insertReferences_of_fresh executionReferenceColumns_same (fun r hr => (hrows r hr).1) hunique] at hwritten
    cases hwritten
    rfl
  have hlog : w.log <+: w.log ++ [x] := List.prefix_append _ _
  subst hw ht
  refine ⟨⟨?_, hi.symbolSets, hi.haltReferences, fun r hr => ?_, fun r hr => ?_, hi.marks⟩, fun k hk => ?_⟩
  · rw [← KeyedTable.insertAll_of_fresh (fun r hr => (hrows r hr).1) hunique]
    exact KeyedTable.unique_insertAll hi.references rows
  · rcases List.mem_append.mp hr with hr | hr
    · exact (hi.justified r hr).mono hlog.subset
    · exact (hrows r hr).2.2.1.mono hlog.subset
  · rcases List.mem_append.mp hr with hr | hr
    · exact hi.past r hr
    · exact (hrows r hr).2.2.2
  · refine ⟨hlog, le_rfl, id, List.prefix_append _ _, List.prefix_refl _, fun l hl => Or.inr ⟨hl, ?_, ?_, ?_⟩⟩
    · intro hstage r hrun
      refine ⟨fun hr => (List.mem_append.mp hr).resolve_right fun hr => ?_, List.mem_append_left _⟩
      have hlock := (hrows r hr).2.1
      rw [hrun, ← hstage, Prod.mk.eta, hl] at hlock
      exact hk (Option.some.inj hlock)
    · exact fun _ _ _ _ _ => Iff.rfl
    · exact fun _ _ _ _ _ => Iff.rfl

/-- The symbols of a halt are written under its lock. -/
theorem keeps_symbolSet {s : HaltSymbolSet} {t : List HaltSymbolSet} {m : Nat} {x : Nat × Event captureDesk} (hi : Inv e w)
    (hallowed : Allowed e n w (.request (.recordHaltSymbolSet s))) (hlost : ¬w.locks.lost n)
    (hwritten : insertReferences symbolSetKey symbolSetColumns w.tables.symbolSets [s] = .ok (t, m))
    (hw : w' = { w with tables := { w.tables with symbolSets := t }, log := w.log ++ [x] }) :
    Inv e w' ∧ ∀ k, k ≠ n → Rely k w w' := by
  obtain ⟨hfresh, hlocked⟩ := hallowed.resolve_left hlost
  have hfresh' : ∀ r ∈ [s], KeyedTable.find symbolSetKey w.tables.symbolSets (symbolSetKey r) = none := by
    intro r hr
    rwa [List.mem_singleton.mp hr]
  have hunique : KeyedTable.Unique symbolSetKey [s] := List.nodup_singleton _
  have ht : t = w.tables.symbolSets ++ [s] := by
    rw [insertReferences_of_fresh symbolSetColumns_same hfresh' hunique] at hwritten
    cases hwritten
    rfl
  have hlog : w.log <+: w.log ++ [x] := List.prefix_append _ _
  subst hw ht
  refine ⟨⟨hi.references, ?_, hi.haltReferences, fun r hr => (hi.justified r hr).mono hlog.subset, hi.past, fun r hr => ?_⟩,
    fun k hk => ?_⟩
  · rw [← KeyedTable.insertAll_of_fresh hfresh' hunique]
    exact KeyedTable.unique_insertAll hi.symbolSets [s]
  · obtain ⟨s', hs', h⟩ := hi.marks r hr
    exact ⟨s', List.mem_append_left _ hs', h⟩
  · refine ⟨hlog, le_rfl, id, List.prefix_refl _, List.prefix_append _ _, fun l hl => Or.inr ⟨hl, ?_, ?_, ?_⟩⟩
    · exact fun _ _ _ => Iff.rfl
    · intro trigger hstage r hrun htrigger
      refine ⟨fun hr => (List.mem_append.mp hr).resolve_right fun hr => ?_, List.mem_append_left _⟩
      rw [← List.mem_singleton.mp hr, hrun, htrigger, ← hstage, Prod.mk.eta, hl] at hlocked
      exact hk (Option.some.inj hlocked)
    · exact fun _ _ _ _ _ => Iff.rfl

/-- The marks of a halt are written under its lock. -/
theorem keeps_haltReferences {rows t : List HaltReference} {m : Nat} {x : Nat × Event captureDesk} (hi : Inv e w)
    (hallowed : Allowed e n w (.request (.recordHaltReferences rows))) (hlost : ¬w.locks.lost n)
    (hwritten : insertReferences haltReferenceKey haltReferenceColumns w.tables.haltReferences rows = .ok (t, m))
    (hw : w' = { w with tables := { w.tables with haltReferences := t }, log := w.log ++ [x] }) :
    Inv e w' ∧ ∀ k, k ≠ n → Rely k w w' := by
  obtain ⟨hunique, hrows⟩ := hallowed.resolve_left hlost
  have ht : t = w.tables.haltReferences ++ rows := by
    rw [insertReferences_of_fresh haltReferenceColumns_same (fun r hr => (hrows r hr).1) hunique] at hwritten
    cases hwritten
    rfl
  have hlog : w.log <+: w.log ++ [x] := List.prefix_append _ _
  subst hw ht
  refine ⟨⟨hi.references, hi.symbolSets, ?_, fun r hr => (hi.justified r hr).mono hlog.subset, hi.past, fun r hr => ?_⟩,
    fun k hk => ?_⟩
  · rw [← KeyedTable.insertAll_of_fresh (fun r hr => (hrows r hr).1) hunique]
    exact KeyedTable.unique_insertAll hi.haltReferences rows
  · rcases List.mem_append.mp hr with hr | hr
    · exact hi.marks r hr
    · exact (hrows r hr).2.2
  · refine ⟨hlog, le_rfl, id, List.prefix_refl _, List.prefix_refl _, fun l hl => Or.inr ⟨hl, ?_, ?_, ?_⟩⟩
    · exact fun _ _ _ => Iff.rfl
    · exact fun _ _ _ _ _ => Iff.rfl
    · intro trigger hstage r hrun htrigger
      refine ⟨fun hr => (List.mem_append.mp hr).resolve_right fun hr => ?_, List.mem_append_left _⟩
      have hlock := (hrows r hr).2.1
      rw [hrun, htrigger, ← hstage, Prod.mk.eta, hl] at hlock
      exact hk (Option.some.inj hlock)

/-- A call that only moves locks as the others may count on. -/
theorem keeps_locks {x : Nat × Event captureDesk} {locks : Locks (UUID × String)} (hi : Inv e w)
    (hlocks : ∀ k, k ≠ n → Locks.Rely k w.locks locks) (hw : w' = { w with locks := locks, log := w.log ++ [x] }) :
    Inv e w' ∧ ∀ k, k ≠ n → Rely k w w' := by
  subst hw
  have hlog : w.log <+: w.log ++ [x] := List.prefix_append _ _
  exact ⟨keeps_tables hi hlog le_rfl rfl, fun k hk => Rely.of_tables hlog le_rfl rfl (hlocks k hk)⟩

/-- Whatever a worker calls where it may, the store stays sound and the others can go on counting on it. -/
theorem keeps_call {c : CaptureCall} {r : c.Reply} (hi : Inv e w) (hallowed : Allowed e n w c) (hans : Answers n c w r w') :
    Inv e w' ∧ ∀ k, k ≠ n → Rely k w w' := by
  obtain ⟨v, heffect, hw⟩ := hans
  have hnoted (hv : v = w) : Inv e w' ∧ ∀ k, k ≠ n → Rely k w w' := by
    subst hv
    obtain ⟨hi', hrely⟩ := keeps_noted hi hw
    exact ⟨hi', fun k _ => hrely k⟩
  cases c with
  | clock => exact hnoted heffect.2
  | request q =>
    cases q with
    | recordExecutionReferences rows =>
      rcases heffect with h | ⟨hlost, h⟩
      · exact hnoted h.2
      · unfold Writes at h
        split at h
        · exact hnoted h.2
        · next hwritten =>
          obtain ⟨-, rfl⟩ := h
          exact keeps_executionReferences hi hallowed hlost hwritten hw
    | recordHaltSymbolSet s =>
      rcases heffect with h | ⟨hlost, h⟩
      · exact hnoted h.2
      · unfold Writes at h
        split at h
        · exact hnoted h.2
        · next hwritten =>
          obtain ⟨-, rfl⟩ := h
          exact keeps_symbolSet hi hallowed hlost hwritten hw
    | recordHaltReferences rows =>
      rcases heffect with h | ⟨hlost, h⟩
      · exact hnoted h.2
      · unfold Writes at h
        split at h
        · exact hnoted h.2
        · next hwritten =>
          obtain ⟨-, rfl⟩ := h
          exact keeps_haltReferences hi hallowed hlost hwritten hw
    | tryLock runId stage =>
      rcases heffect with h | ⟨hlost, h⟩
      · exact hnoted h.2
      · split at h
        · next hfree =>
          obtain ⟨-, rfl⟩ := h
          exact keeps_locks hi (fun k hk => Locks.rely_take hk hfree) hw
        · exact hnoted h.2
    | unlock runId stage =>
      rcases heffect with h | ⟨-, rfl⟩
      · exact hnoted h.2
      · exact keeps_locks hi (fun k hk => Locks.rely_release hk w.locks _) hw
    | loadRun runId => exact hnoted heffect.2
    | executionReferences runId => exact hnoted heffect.2
    | haltSymbolSet runId trigger => exact hnoted heffect.2
    | haltReferences runId trigger => exact hnoted heffect.2
    | _ => exact hnoted heffect

/-- Time and lost sessions keep the promises as well. -/
theorem keeps_move (hi : Inv e w) (hmove : Moves w w') : Inv e w' ∧ ∀ k, Rely k w w' := by
  cases hmove with
  | tick t ht =>
    exact ⟨keeps_tables hi (List.prefix_refl _) ht rfl,
      fun k => Rely.of_tables (List.prefix_refl _) ht rfl (Locks.Rely.refl k _)⟩
  | lose n =>
    exact ⟨keeps_tables hi (List.prefix_refl _) le_rfl rfl,
      fun k => Rely.of_tables (List.prefix_refl _) le_rfl rfl (Locks.rely_lose w.locks k n)⟩

end Promises

end ReferenceCapture
end AsymmetricCommittee
