import AsymmetricCommittee.Contracts.ReferenceRows
import AsymmetricCommittee.Store.Immutable

/-! The reference tables (`store/write.py`, `store/as_of.py`): insert-only, one row for each key, and a row that contradicts a
    stored one is refused. The rows of one call are one transaction. -/

namespace AsymmetricCommittee

/-- The rows of `execution_references`, `halt_reference_symbol_sets` and `halt_references`, oldest first. -/
structure ReferenceTables where
  executionReferences : List ExecutionReference
  symbolSets : List HaltSymbolSet
  haltReferences : List HaltReference

namespace Store

/-- The columns of an observation that are compared. -/
def observedColumns {ρ : Type} (observed : ρ → Observed) : List (Column ρ) :=
  [Column.of "status" fun r => (observed r).status, Column.of "reason" fun r => (observed r).reason,
    Column.of "price" fun r => (observed r).price, Column.of "source" fun r => (observed r).source,
    Column.of "trade_time" fun r => (observed r).tradeTime.map (·.instant),
    Column.of "trade_tape" fun r => (observed r).tradeTape, Column.of "trade_conditions" fun r => (observed r).tradeConditions,
    Column.of "trade_id" fun r => (observed r).tradeId]

def executionReferenceKey (r : ExecutionReference) : UUID × Ticker := (r.runId, r.symbolRef)

def executionReferenceColumns : List (Column ExecutionReference) :=
  [Column.of "ref_time" fun r => r.refTime.map (·.instant), Column.of "mode" fun r => r.mode,
    Column.of "session_date" fun r => r.sessionDate, Column.of "source_version" fun r => r.sourceVersion] ++
  observedColumns fun r => r.toObserved

def symbolSetKey (r : HaltSymbolSet) : UUID × KillTrigger := (r.runId, r.trigger)

def symbolSetColumns : List (Column HaltSymbolSet) :=
  [Column.of "symbols" fun r => r.symbols, Column.of "symbol_count" fun r => r.symbolCount,
    Column.of "symbols_sha256" fun r => r.symbolsSha256, Column.of "source" fun r => r.source,
    Column.of "source_version" fun r => r.sourceVersion]

def haltReferenceKey (r : HaltReference) : UUID × KillTrigger × Ticker := (r.runId, r.trigger, r.symbolRef)

def haltReferenceColumns : List (Column HaltReference) :=
  [Column.of "observed_at" fun r => r.observedAt.instant, Column.of "lag_seconds" fun r => r.lagSeconds,
    Column.of "symbol_set_source" fun r => r.symbolSetSource, Column.of "symbol_set_version" fun r => r.symbolSetVersion,
    Column.of "source_version" fun r => r.sourceVersion] ++ observedColumns fun r => r.toObserved

section Insert
variable {ρ κ : Type} [DecidableEq κ] (key : ρ → κ) (columns : List (Column ρ))

/-- The first column in which a presented row contradicts the stored row of its key. -/
def conflict? (t : List ρ) (r : ρ) : Option String :=
  ((KeyedTable.find key t (key r)).bind fun stored => columns.find? fun c => !c.same stored r).map (·.name)

/-- `_insert_immutable` of the rows of one call: the table after it and how many rows were new, or the column that a row
    contradicts. -/
def insertReferences (t rows : List ρ) : Except String (List ρ × Nat) :=
  let t' := KeyedTable.insertAll key t rows
  match rows.findSome? (conflict? key columns t') with
  | some column => .error column
  | none => .ok (t', t'.length - t.length)

variable {key columns} {t t' rows : List ρ} {n : Nat}

theorem insertReferences_eq_ok (h : insertReferences key columns t rows = .ok (t', n)) : t' = KeyedTable.insertAll key t rows := by
  unfold insertReferences at h
  dsimp only at h
  split at h
  · cases h
  · cases h
    rfl

/-- Rows under new keys contradict nothing, and all of them are new. -/
theorem insertReferences_of_fresh (hsame : ∀ c ∈ columns, ∀ r, c.same r r = true)
    (hfresh : ∀ r ∈ rows, KeyedTable.find key t (key r) = none) (hunique : KeyedTable.Unique key rows) :
    insertReferences key columns t rows = .ok (t ++ rows, rows.length) := by
  have happend := KeyedTable.insertAll_of_fresh hfresh hunique
  have hnone : rows.findSome? (conflict? key columns (t ++ rows)) = none := by
    rw [List.findSome?_eq_none_iff]
    intro r hr
    have hfind : KeyedTable.find key (t ++ rows) (key r) = some r := by
      rw [KeyedTable.find_append, hfresh r hr, Option.none_or]
      exact (KeyedTable.find_eq_some hunique).mpr ⟨hr, rfl⟩
    have hcolumns : (columns.find? fun c => !c.same r r) = none := by
      rw [List.find?_eq_none]
      intro c hc
      simp [hsame c hc r]
    rw [conflict?, hfind, Option.bind_some, hcolumns]
    rfl
  unfold insertReferences
  dsimp only
  rw [happend, hnone]
  simp

end Insert

theorem executionReferenceColumns_same : ∀ c ∈ executionReferenceColumns, ∀ r, c.same r r = true := by
  simp [executionReferenceColumns, observedColumns, Column.of]

theorem symbolSetColumns_same : ∀ c ∈ symbolSetColumns, ∀ r, c.same r r = true := by
  simp [symbolSetColumns, Column.of]

theorem haltReferenceColumns_same : ∀ c ∈ haltReferenceColumns, ∀ r, c.same r r = true := by
  simp [haltReferenceColumns, observedColumns, Column.of]

/-! ### Readers -/

/-- `execution_references`: the references of a run, by symbol. -/
def executionReferences (db : ReferenceTables) (runId : UUID) : List ExecutionReference :=
  (db.executionReferences.filter fun r => decide (r.runId = runId)).insertionSort fun a b => a.symbolRef.val ≤ b.symbolRef.val

/-- `halt_symbol_set`. -/
def haltSymbolSet (db : ReferenceTables) (runId : UUID) (trigger : KillTrigger) : Option HaltSymbolSet :=
  KeyedTable.find symbolSetKey db.symbolSets (runId, trigger)

/-- `halt_references`: the marks of a halt, by symbol. -/
def haltReferences (db : ReferenceTables) (runId : UUID) (trigger : KillTrigger) : List HaltReference :=
  (db.haltReferences.filter fun r => decide (r.runId = runId ∧ r.trigger = trigger)).insertionSort fun a b =>
    a.symbolRef.val ≤ b.symbolRef.val

@[simp] theorem mem_executionReferences {db : ReferenceTables} {runId : UUID} {r : ExecutionReference} :
    r ∈ executionReferences db runId ↔ r ∈ db.executionReferences ∧ r.runId = runId := by
  simp [executionReferences]

@[simp] theorem mem_haltReferences {db : ReferenceTables} {runId : UUID} {trigger : KillTrigger} {r : HaltReference} :
    r ∈ haltReferences db runId trigger ↔ r ∈ db.haltReferences ∧ r.runId = runId ∧ r.trigger = trigger := by
  simp [haltReferences]

/-- `pending_halt_requests`: a request without a symbol set, or with fewer marks than symbols, by the time of the request. -/
def pendingHaltRequests (db : ReferenceTables) (requests : List HaltReferenceRequest) : List HaltReferenceRequest :=
  (requests.filter fun req => match haltSymbolSet db req.runId req.trigger with
    | none => true
    | some symbolSet => decide ((haltReferences db req.runId req.trigger).length < symbolSet.symbolCount)).insertionSort
      fun a b => toLex (a.requestedAt.instant, a.runId.int) ≤ toLex (b.requestedAt.instant, b.runId.int)

end Store
end AsymmetricCommittee
