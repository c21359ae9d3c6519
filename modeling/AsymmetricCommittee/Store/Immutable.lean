import AsymmetricCommittee.Lib.CheckedInsert
import AsymmetricCommittee.Lib.KeyedTable

/-! The immutable, conflict-checked writer of `store/write.py`: exact replay is a no-op and a contradicting
    replay raises. A table is the list of its rows; a write returns the table after it, so a write that raises
    leaves nothing behind (its transaction is rolled back). -/

namespace AsymmetricCommittee

/-- The tables that the conflict-checking writer serves. -/
inductive TableName where
  | tradingCalendar
  | calendarCoverage
  | haltReferenceRequests
  deriving DecidableEq, Repr

/-- Why a reset is refused: what the run already has. -/
inductive ResetRefusal where
  | missingRun
  | commitment
  | anchor
  | orders
  | killSwitchEvent
  deriving DecidableEq, Repr

/-- What a store write raises. -/
inductive StoreError where
  /-- `ImmutableConflictError`: the stored row has another value in the column. -/
  | immutableConflict (table : TableName) (column : String)
  /-- `KeyError` of a row that was not read back. -/
  | notReadBack (table : TableName)
  /-- `coverage does not describe the sessions written with it` -/
  | coverageMismatch
  /-- `session is outside the covered range` -/
  | sessionOutsideRange
  /-- `sessions and their coverage share one available_at` -/
  | availableAtDiffers
  /-- `IntegrityError`: the row names a run, a security or a commitment that is not stored. -/
  | foreignKey
  /-- `CommitmentMismatchError`: the run is already committed to another hash. -/
  | commitmentMismatch
  /-- `AnchorMismatchError`: the run is already anchored to another hash. -/
  | anchorMismatch
  /-- `AnchorIncompleteError`: no timestamp proof or no git commit. -/
  | anchorIncomplete
  /-- `ResetRefusedError` -/
  | resetRefused (because : ResetRefusal)
  /-- `ValidationError`: a stored row is not a record any more. -/
  | invalidRow
  /-- `RunHaltedError`: a run of the slot was halted by the kill switch. -/
  | runHalted
  deriving DecidableEq, Repr

namespace Store

/-- A compared column: two rows have the same canonical value in it. -/
structure Column (ρ : Type) where
  name : String
  same : ρ → ρ → Bool

/-- A column whose canonical form is `f`. -/
def Column.of {ρ α : Type} [DecidableEq α] (name : String) (f : ρ → α) : Column ρ :=
  ⟨name, fun a b => decide (f a = f b)⟩

/-- What the writer knows of a table: its key columns, and the columns that are neither key nor write time. -/
structure ImmutableTable (ρ κ : Type) where
  name : TableName
  key : ρ → κ
  payload : List (Column ρ)

/-- Two rows agree on every compared column. -/
def ImmutableTable.Agree {ρ κ : Type} (T : ImmutableTable ρ κ) (a b : ρ) : Prop := ∀ c ∈ T.payload, c.same a b

/-- `_CHUNK`. -/
def chunkSize : Nat := 1000

variable {ρ κ : Type} [DecidableEq κ] (T : ImmutableTable ρ κ)

/-- A presented row against the stored row of its key. -/
def checkStored (t : List ρ) (r : ρ) : Except StoreError Unit :=
  match KeyedTable.find T.key t (T.key r) with
  | none => .error (.notReadBack T.name)
  | some existing =>
    match T.payload.find? fun c => !c.same existing r with
    | none => .ok ()
    | some c => .error (.immutableConflict T.name c.name)

/-- One chunk: insert what is new, then read every row back and compare. -/
def insertChunk (s : List ρ × Nat) (chunk : List ρ) : Except StoreError (List ρ × Nat) := do
  let t := KeyedTable.insertAll T.key s.1 chunk
  let _ ← chunk.mapM (checkStored T t)
  return (t, s.2 + (t.length - s.1.length))

/-- `_insert_immutable`: the table after the write, and how many rows were new. -/
def insertImmutable (t models : List ρ) : Except StoreError (List ρ × Nat) :=
  (chunks chunkSize models).foldlM (insertChunk T) (t, 0)

/-! ### What a write does -/

variable {T} {t t' : List ρ} {rs : List ρ} {r : ρ}

omit [DecidableEq κ] in
theorem find?_differs_eq_none {e : ρ} : (T.payload.find? fun c => !c.same e r) = none ↔ T.Agree e r := by
  simp [ImmutableTable.Agree, List.find?_eq_none]

theorem checkStored_eq_ok : checkStored T t r = .ok () ↔
    ∃ e, KeyedTable.find T.key t (T.key r) = some e ∧ T.Agree e r := by
  unfold checkStored
  cases h : KeyedTable.find T.key t (T.key r) with
  | none => exact ⟨nofun, fun ⟨_, he, _⟩ => nomatch he⟩
  | some e =>
    simp only [Option.some.injEq, exists_eq_left', ← find?_differs_eq_none]
    cases hc : T.payload.find? fun c => !c.same e r with
    | none => simp
    | some c => simp

theorem insertChunk_eq_ok {s s' : List ρ × Nat} : insertChunk T s rs = .ok s' ↔
    (∀ r ∈ rs, checkStored T (KeyedTable.insertAll T.key s.1 rs) r = .ok ()) ∧
      s' = (KeyedTable.insertAll T.key s.1 rs, s.2 + ((KeyedTable.insertAll T.key s.1 rs).length - s.1.length)) := by
  constructor
  · intro h
    obtain ⟨us, hus, h⟩ := Except.bind_eq_ok.mp h
    refine ⟨fun r hr => ?_, by cases h; rfl⟩
    obtain ⟨u, -, hu⟩ := Forall₂.exists_of_mem_left (Except.mapM_eq_ok.mp hus) hr
    exact hu
  · rintro ⟨hchecks, rfl⟩
    obtain ⟨us, hus⟩ := Except.mapM_ok_of_forall fun r hr => ⟨(), hchecks r hr⟩
    exact Except.bind_eq_ok.mpr ⟨us, hus, rfl⟩

/-- A check that passes passes for ever: a row is never replaced. -/
theorem checkStored_insertAll (h : checkStored T t r = .ok ()) (rs : List ρ) :
    checkStored T (KeyedTable.insertAll T.key t rs) r = .ok () := by
  obtain ⟨e, he, hagree⟩ := checkStored_eq_ok.mp h
  exact checkStored_eq_ok.mpr ⟨e, KeyedTable.find_insertAll_of_some he, hagree⟩

/-- A row inserted is found at once, so the check after its own chunk says what any later one says. -/
theorem checkStored_of_later {rs' : List ρ} (hr : r ∈ rs)
    (h : checkStored T (KeyedTable.insertAll T.key (KeyedTable.insertAll T.key t rs) rs') r = .ok ()) :
    checkStored T (KeyedTable.insertAll T.key t rs) r = .ok () := by
  obtain ⟨e, he, hagree⟩ := checkStored_eq_ok.mp h
  refine checkStored_eq_ok.mpr ⟨e, ?_, hagree⟩
  have hsome : (KeyedTable.find T.key (KeyedTable.insertAll T.key t rs) (T.key r)).isSome := by
    rw [KeyedTable.find_insertAll, Option.isSome_or, KeyedTable.find_isSome hr, Bool.or_true]
  obtain ⟨e', he'⟩ := Option.isSome_iff_exists.mp hsome
  rw [KeyedTable.find_insertAll_of_some he'] at he
  rw [he', he]

theorem checkedInsert (T : ImmutableTable ρ κ) :
    CheckedInsert (KeyedTable.insertAll T.key) (fun t r => checkStored T t r = .ok ()) (fun _ => True) (insertChunk T) where
  step_eq_ok _ _ _ := insertChunk_eq_ok
  insert_nil _ := rfl
  insert_append := KeyedTable.insertAll_append
  grows t rs := (KeyedTable.prefix_insertAll t rs).length_le
  later _ rs _ h := checkStored_insertAll h rs
  earlier _ _ _ _ _ hr h := checkStored_of_later hr h

/-- The write succeeds exactly when every presented row agrees with the row stored under its key, which is
    the one that was there or the first presented. -/
theorem insertImmutable_eq_ok {n : Nat} : insertImmutable T t rs = .ok (t', n) ↔
    (∀ r ∈ rs, ∃ e, KeyedTable.find T.key (KeyedTable.insertAll T.key t rs) (T.key r) = some e ∧ T.Agree e r) ∧
      t' = KeyedTable.insertAll T.key t rs ∧ n = t'.length - t.length := by
  rw [insertImmutable, (checkedInsert T).foldlM_eq_ok fun _ _ => trivial, flatten_chunks (by decide)]
  simp only [checkStored_eq_ok, Prod.mk.injEq, Nat.zero_add]
  refine and_congr_right fun _ => and_congr_right fun ht => ?_
  rw [ht]

end Store
end AsymmetricCommittee
