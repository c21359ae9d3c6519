import AsymmetricCommittee.Contracts.Commitment
import AsymmetricCommittee.Lib.CheckedInsert
import AsymmetricCommittee.Lib.Dict
import AsymmetricCommittee.Lib.KeyedTable
import AsymmetricCommittee.Store.Immutable

/-! The immutable writer of `store/write.py` at the level of its rows: dictionaries of columns, which the database reads
    back in a form of its own and which are compared in one canonical form. -/

namespace AsymmetricCommittee
namespace Store
namespace Rows

/-! ### Values -/

/-- A value of a column. Python compares an integer and a float as numbers, and here a tuple is a list. -/
inductive Cell (N : Type) where
  | none
  | number (x : N)
  | text (s : String)
  | date (d : Date)
  | datetime (d : AwareDatetime)
  | naiveDatetime (local_ : Int)
  | enum (value : Cell N)
  | uuid (u : UUID)
  | mapping (items : List (String × Cell N))
  | list (items : List (Cell N))

inductive RowError where
  /-- `naive datetime in an immutable payload` -/
  | naiveDatetime
  | keyError
  /-- `ImmutableConflictError` -/
  | conflict (table column : String)
  deriving DecidableEq, Repr

section Values
variable {N : Type}

mutual
/-- `_canonical`: one comparable form for a value. -/
def canonical : Cell N → Except RowError (Cell N)
  | .datetime d => .ok (.text (IsoTime.isoUtcMicros d.instant))
  | .naiveDatetime _ => .error .naiveDatetime
  | .enum value => .ok value
  | .uuid u => .ok (.text u.str)
  | .mapping items => (canonicalEntries items).map fun es => .mapping (es.mergeSort fun a b => decide (a.1 ≤ b.1))
  | .list items => (canonicalItems items).map .list
  | .none => .ok .none
  | .number x => .ok (.number x)
  | .text s => .ok (.text s)
  | .date d => .ok (.date d)

def canonicalEntries : List (String × Cell N) → Except RowError (List (String × Cell N))
  | [] => .ok []
  | e :: es => do
    let v ← canonical e.2
    let rest ← canonicalEntries es
    return (e.1, v) :: rest

def canonicalItems : List (Cell N) → Except RowError (List (Cell N))
  | [] => .ok []
  | v :: vs => do
    let v ← canonical v
    let rest ← canonicalItems vs
    return v :: rest
end

variable [DecidableEq N]

mutual
/-- `a == b`. -/
def eqCell : Cell N → Cell N → Bool
  | .none, .none => true
  | .number x, .number y => x = y
  | .text s, .text s' => s = s'
  | .date d, .date d' => d = d'
  | .datetime d, .datetime d' => d = d'
  | .naiveDatetime t, .naiveDatetime t' => t = t'
  | .enum v, .enum v' => eqCell v v'
  | .uuid u, .uuid u' => u = u'
  | .mapping es, .mapping es' => eqEntries es es'
  | .list vs, .list vs' => eqItems vs vs'
  | _, _ => false

def eqEntries : List (String × Cell N) → List (String × Cell N) → Bool
  | [], [] => true
  | e :: es, e' :: es' => decide (e.1 = e'.1) && eqCell e.2 e'.2 && eqEntries es es'
  | _, _ => false

def eqItems : List (Cell N) → List (Cell N) → Bool
  | [], [] => true
  | v :: vs, v' :: vs' => eqCell v v' && eqItems vs vs'
  | _, _ => false
end

mutual
theorem eqCell_iff (a b : Cell N) : eqCell a b = true ↔ a = b := by
  cases a with
  | enum v =>
    cases b with
    | enum v' => rw [eqCell, eqCell_iff v v', Cell.enum.injEq]
    | _ => simp [eqCell]
  | mapping es =>
    cases b with
    | mapping es' => rw [eqCell, eqEntries_iff es es', Cell.mapping.injEq]
    | _ => simp [eqCell]
  | list vs =>
    cases b with
    | list vs' => rw [eqCell, eqItems_iff vs vs', Cell.list.injEq]
    | _ => simp [eqCell]
  | _ => cases b <;> simp [eqCell]

theorem eqEntries_iff (es es' : List (String × Cell N)) : eqEntries es es' = true ↔ es = es' := by
  match es, es' with
  | [], [] => simp [eqEntries]
  | [], _ :: _ => simp [eqEntries]
  | _ :: _, [] => simp [eqEntries]
  | (k, v) :: es, (k', v') :: es' =>
    rw [eqEntries, Bool.and_eq_true, Bool.and_eq_true, decide_eq_true_eq, eqCell_iff v v', eqEntries_iff es es', List.cons.injEq,
      Prod.mk.injEq]

theorem eqItems_iff (vs vs' : List (Cell N)) : eqItems vs vs' = true ↔ vs = vs' := by
  match vs, vs' with
  | [], [] => simp [eqItems]
  | [], _ :: _ => simp [eqItems]
  | _ :: _, [] => simp [eqItems]
  | v :: vs, v' :: vs' => rw [eqItems, Bool.and_eq_true, eqCell_iff v v', eqItems_iff vs vs', List.cons.injEq]
end

instance : DecidableEq (Cell N) := fun a b => decidable_of_iff _ (eqCell_iff a b)

end Values

/-! ### Rows and tables -/

structure Table where
  name : String
  columns : List String
  deriving DecidableEq, Repr

/-- `_WRITE_TIME`: when a row was written or fetched again, not what it says. -/
def writeTime : List String := ["ingested_at", "available_at", "established_at", "resolved_at"]

/-- The columns that are compared. -/
def payloadCols (table : Table) (keyCols : List String) : List String :=
  table.columns.filter fun c => decide (c ∉ keyCols ∧ c ∉ writeTime)

variable {N : Type}

/-- A row as it is presented: the columns that its model has. -/
abbrev Row (N : Type) := Dict String (Cell N)

/-- A row as it is stored: a value in every column. -/
abbrev StoredRow (N : Type) := String → Cell N

/-- An enumeration member by its value. -/
def Cell.plain : Cell N → Cell N
  | .enum value => value
  | v => v

/-- `_row`. -/
def rowOf (table : Table) (dump : Dict String (Cell N)) : Row N :=
  dump.filterMap fun k v => if k ∈ table.columns then some v.plain else none

/-- What the database does with a row: the form in which it reads a column back, and the default of a column that the row
    lacks, at the time of the transaction. -/
structure Database (N : Type) where
  readBack : String → Cell N → Cell N
  default : AwareDatetime → String → Cell N

def Database.store (db : Database N) (now : AwareDatetime) (r : Row N) : StoredRow N := fun c =>
  match r.get? c with
  | some v => db.readBack c v
  | none => db.default now c

def storedKey (keyCols : List String) (r : StoredRow N) : List (Cell N) := keyCols.map r

/-- `tuple(r[k] for k in key_cols)`. -/
def rowKey (keyCols : List String) (r : Row N) : Option (List (Cell N)) := keyCols.mapM fun k => r.get? k

variable [DecidableEq N] (db : Database N) (table : Table) (keyCols : List String)

/-- One column of a presented row against the stored row; a column that the row lacks is not compared. -/
def checkColumn (existing : StoredRow N) (r : Row N) (col : String) : Except RowError Unit :=
  match r.get? col with
  | none => .ok ()
  | some v => do
    let was ← canonical (existing col)
    let presented ← canonical v
    if was = presented then return () else throw (.conflict table.name col)

/-- A presented row against the stored row of its key. -/
def checkRow (t : List (StoredRow N)) (r : Row N) : Except RowError Unit :=
  match (rowKey keyCols r).bind (KeyedTable.find (storedKey keyCols) t) with
  | none => .error .keyError
  | some existing => (payloadCols table keyCols).forM (checkColumn table existing r)

/-- `INSERT ... ON CONFLICT DO NOTHING` of the rows of a chunk. -/
def insertRows (now : AwareDatetime) (t : List (StoredRow N)) (chunk : List (Row N)) : List (StoredRow N) :=
  KeyedTable.insertAll (storedKey keyCols) t (chunk.map (db.store now))

/-- The chunks of a batch: what the writer returns or raises, and the table when it does. -/
def insertChunks (now : AwareDatetime) : List (List (Row N)) → List (StoredRow N) → Nat →
    Except RowError Nat × List (StoredRow N)
  | [], t, inserted => (.ok inserted, t)
  | chunk :: rest, t, inserted =>
    let t' := insertRows db keyCols now t chunk
    match chunk.forM (checkRow table keyCols t') with
    | .error e => (.error e, t')
    | .ok _ => insertChunks now rest t' (inserted + (t'.length - t.length))

/-- What one call writes, and when. -/
structure Batch (N : Type) where
  now : AwareDatetime
  models : List (Dict String (Cell N))

/-- `_insert_immutable`. -/
def insertImmutableRows (t : List (StoredRow N)) (batch : Batch N) : Except RowError Nat × List (StoredRow N) :=
  insertChunks db table keyCols batch.now (chunks chunkSize (batch.models.map (rowOf table))) t 0

/-- The call within a savepoint of its caller: what it raises undoes what it wrote. -/
def savepoint (t : List (StoredRow N)) (batch : Batch N) : Except RowError Nat × List (StoredRow N) :=
  match insertImmutableRows db table keyCols t batch with
  | (.ok n, t') => (.ok n, t')
  | (.error e, _) => (.error e, t)

/-- Calls one after the other: what each returns or raises, and the table after them. -/
def runBatches : List (StoredRow N) → List (Batch N) → List (Except RowError Nat) × List (StoredRow N)
  | t, [] => ([], t)
  | t, batch :: rest =>
    let (result, t') := savepoint db table keyCols t batch
    let (results, t'') := runBatches t' rest
    (result :: results, t'')

/-! ### The tables -/

def tradingCalendar : Table :=
  ⟨"trading_calendar", ["session_date", "source_version", "open_at", "close_at", "event_time", "available_at", "ingested_at"]⟩

def calendarCoverage : Table :=
  ⟨"calendar_coverage", ["source", "range_start", "range_end", "source_version", "available_at", "ingested_at", "session_count",
    "sessions_sha256"]⟩

def tbillRates : Table :=
  ⟨"tbill_rates", ["series", "observation_date", "vintage_date", "yield_pct", "ingested_at", "source_version"]⟩

def tbillVintageCoverage : Table :=
  ⟨"tbill_vintage_coverage", ["series", "source_version", "established_at", "earliest_vintage", "latest_vintage",
    "vintage_count", "vintage_dates_sha256", "ingested_at"]⟩

def executionReferences : Table :=
  ⟨"execution_references", ["run_id", "symbol_ref", "ref_time", "mode", "status", "reason", "price", "source", "trade_time",
    "trade_tape", "trade_conditions", "trade_id", "session_date", "available_at", "ingested_at", "source_version"]⟩

def haltReferenceRequests : Table :=
  ⟨"halt_reference_requests", ["run_id", "trigger", "tau", "status", "requested_at", "ingested_at", "source_version"]⟩

def haltReferenceSymbolSets : Table :=
  ⟨"halt_reference_symbol_sets", ["run_id", "trigger", "symbols", "symbol_count", "symbols_sha256", "source", "source_version",
    "resolved_at", "ingested_at"]⟩

def haltReferences : Table :=
  ⟨"halt_references", ["run_id", "trigger", "symbol_ref", "observed_at", "lag_seconds", "status", "reason", "price", "source",
    "trade_time", "trade_tape", "trade_conditions", "trade_id", "symbol_set_source", "symbol_set_version", "available_at",
    "ingested_at", "source_version"]⟩

/-- The tables that the writers of `store/write.py` write, with the key columns each passes. -/
def immutableWriters : List (Table × List String) :=
  [(tradingCalendar, ["session_date", "source_version"]),
    (calendarCoverage, ["source", "range_start", "range_end", "source_version"]),
    (tbillRates, ["series", "observation_date", "vintage_date"]),
    (tbillVintageCoverage, ["series", "source_version"]),
    (executionReferences, ["run_id", "symbol_ref"]),
    (haltReferenceRequests, ["run_id", "trigger"]),
    (haltReferenceSymbolSets, ["run_id", "trigger"]),
    (haltReferences, ["run_id", "trigger", "symbol_ref"])]

end Rows
end Store
end AsymmetricCommittee
