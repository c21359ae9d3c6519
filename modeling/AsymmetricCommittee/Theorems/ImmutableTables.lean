import AsymmetricCommittee.Store.ImmutableRows

/-! Immutable tables over sequences of batches. A key keeps the first row stored for it, so what a presented row is compared
    with never changes; a batch returns exactly when each of its rows says the same as that row, and a replay inserts
    nothing. -/

namespace AsymmetricCommittee
namespace Store
namespace Rows
variable {N : Type} [DecidableEq N] {db : Database N} {table : Table} {keyCols : List String} {t t' : List (StoredRow N)}
  {r : Row N} {e : StoredRow N} {now : AwareDatetime} {b : Batch N} {bs bs' : List (Batch N)} {n : Nat}

/-! ### One row -/

omit [DecidableEq N] in
variable (db keyCols) in
/-- The row has its key columns, and the database reads them back as they were written. -/
def Keyed (r : Row N) : Prop := ∀ k ∈ keyCols, ∃ v, r.get? k = some v ∧ db.readBack k v = v

variable (table keyCols) in
/-- The stored row has, in one canonical form, what the presented row says in each column that is compared. -/
def Agrees (e : StoredRow N) (r : Row N) : Prop :=
  ∀ col ∈ payloadCols table keyCols, ∀ v, r.get? col = some v → ∃ form, canonical (e col) = .ok form ∧ canonical v = .ok form

omit [DecidableEq N] in
theorem rowKey_eq (h : Keyed db keyCols r) (now : AwareDatetime) :
    rowKey keyCols r = some (storedKey keyCols (db.store now r)) := by
  unfold rowKey storedKey
  induction keyCols with
  | nil => rfl
  | cons k keyCols ih =>
    obtain ⟨hk, hrest⟩ := List.forall_mem_cons.mp h
    obtain ⟨v, hv, hback⟩ := hk
    have hstore : db.store now r k = v := by rw [Database.store, hv]; exact hback
    rw [List.mapM_cons, hv, ih hrest, List.map_cons, hstore]
    rfl

omit [DecidableEq N] in
theorem rowKey_congr {r' : Row N} (h : ∀ k ∈ keyCols, r'.get? k = r.get? k) : rowKey keyCols r' = rowKey keyCols r := by
  unfold rowKey
  induction keyCols with
  | nil => rfl
  | cons k keyCols ih =>
    obtain ⟨hk, hrest⟩ := List.forall_mem_cons.mp h
    rw [List.mapM_cons, List.mapM_cons, hk, ih hrest]

theorem checkColumn_eq_ok {col : String} : checkColumn table e r col = .ok () ↔
    ∀ v, r.get? col = some v → ∃ form, canonical (e col) = .ok form ∧ canonical v = .ok form := by
  unfold checkColumn
  cases hv : r.get? col with
  | none => exact ⟨fun _ => nofun, fun _ => rfl⟩
  | some v =>
    constructor
    · intro h _ hv
      cases hv
      obtain ⟨was, hwas, h⟩ := Except.bind_eq_ok.mp h
      obtain ⟨presented, hpresented, h⟩ := Except.bind_eq_ok.mp h
      split at h
      · next heq => exact ⟨was, hwas, heq ▸ hpresented⟩
      · cases h
    · intro h
      obtain ⟨form, hwas, hpresented⟩ := h v rfl
      refine Except.bind_eq_ok.mpr ⟨form, hwas, Except.bind_eq_ok.mpr ⟨form, hpresented, ?_⟩⟩
      exact if_pos rfl

theorem checkRow_eq_ok : checkRow table keyCols t r = .ok () ↔
    ∃ e, (rowKey keyCols r).bind (KeyedTable.find (storedKey keyCols) t) = some e ∧ Agrees table keyCols e r := by
  unfold checkRow
  cases he : (rowKey keyCols r).bind (KeyedTable.find (storedKey keyCols) t) with
  | none => exact ⟨nofun, fun ⟨_, he, _⟩ => nomatch he⟩
  | some e =>
    simp only [Option.some.injEq, exists_eq_left', Except.forM_eq_ok, checkColumn_eq_ok]
    rfl

/-- A row is never replaced, so what agrees with the table agrees with it for ever. -/
theorem checkRow_insertAll (h : checkRow table keyCols t r = .ok ()) (rows : List (StoredRow N)) :
    checkRow table keyCols (KeyedTable.insertAll (storedKey keyCols) t rows) r = .ok () := by
  obtain ⟨e, he, hagrees⟩ := checkRow_eq_ok.mp h
  obtain ⟨key, hkey, hfind⟩ := Option.bind_eq_some_iff.mp he
  exact checkRow_eq_ok.mpr ⟨e, Option.bind_eq_some_iff.mpr ⟨key, hkey, KeyedTable.find_insertAll_of_some hfind⟩, hagrees⟩

/-- The row of a key is there once its chunk is inserted, and it is the one that every later look finds. -/
theorem checkRow_of_later {rows : List (Row N)} {rows' : List (StoredRow N)} (hkeyed : Keyed db keyCols r) (hr : r ∈ rows)
    (h : checkRow table keyCols (KeyedTable.insertAll (storedKey keyCols) (insertRows db keyCols now t rows) rows') r = .ok ()) :
    checkRow table keyCols (insertRows db keyCols now t rows) r = .ok () := by
  obtain ⟨e, he, hagrees⟩ := checkRow_eq_ok.mp h
  refine checkRow_eq_ok.mpr ⟨e, ?_, hagrees⟩
  rw [rowKey_eq hkeyed now, Option.bind_some] at he ⊢
  have hsome : (KeyedTable.find (storedKey keyCols) (insertRows db keyCols now t rows)
      (storedKey keyCols (db.store now r))).isSome := by
    rw [insertRows, KeyedTable.find_insertAll, Option.isSome_or, KeyedTable.find_isSome (List.mem_map_of_mem hr), Bool.or_true]
  obtain ⟨e', he'⟩ := Option.isSome_iff_exists.mp hsome
  rw [KeyedTable.find_insertAll_of_some he'] at he
  rw [he', he]

/-! ### One batch -/

variable (db table keyCols) in
/-- A chunk, when it raises nothing. -/
def insertChunk (now : AwareDatetime) (s : List (StoredRow N) × Nat) (chunk : List (Row N)) :
    Except RowError (List (StoredRow N) × Nat) :=
  (chunk.forM (checkRow table keyCols (insertRows db keyCols now s.1 chunk))).map fun _ =>
    (insertRows db keyCols now s.1 chunk, s.2 + ((insertRows db keyCols now s.1 chunk).length - s.1.length))

theorem insertChunks_eq_ok {cs : List (List (Row N))} {n m : Nat} : insertChunks db table keyCols now cs t n = (.ok m, t') ↔
    cs.foldlM (insertChunk db table keyCols now) (t, n) = .ok (t', m) := by
  induction cs generalizing t n with
  | nil => simp [insertChunks, pure, Except.pure, and_comm]
  | cons c cs ih =>
    rw [List.foldlM_cons, insertChunks, insertChunk]
    dsimp only
    cases h : c.forM (checkRow table keyCols (insertRows db keyCols now t c)) with
    | error e => simp [Except.map, bind, Except.bind]
    | ok u => exact ih

theorem checkedInsert (now : AwareDatetime) : CheckedInsert (insertRows db keyCols now)
    (fun t r => checkRow table keyCols t r = .ok ()) (Keyed db keyCols) (insertChunk db table keyCols now) where
  step_eq_ok s rs s' := by
    rw [insertChunk, Except.map_eq_ok]
    constructor
    · rintro ⟨u, hu, rfl⟩
      exact ⟨Except.forM_eq_ok.mp hu, rfl⟩
    · rintro ⟨hall, rfl⟩
      exact ⟨(), Except.forM_eq_ok.mpr hall, rfl⟩
  insert_nil _ := rfl
  insert_append t rs rs' := by rw [insertRows, List.map_append, KeyedTable.insertAll_append]; rfl
  grows t rs := (KeyedTable.prefix_insertAll t _).length_le
  later _ _ _ h := checkRow_insertAll h _
  earlier _ _ _ _ hkeyed hr h := checkRow_of_later hkeyed hr h

variable (table) in
/-- The rows of a batch. -/
def Batch.rows (b : Batch N) : List (Row N) := b.models.map (rowOf table)

theorem insertImmutableRows_eq_ok (hkeyed : ∀ r ∈ b.rows table, Keyed db keyCols r) :
    insertImmutableRows db table keyCols t b = (.ok n, t') ↔
      (∀ r ∈ b.rows table, checkRow table keyCols (insertRows db keyCols b.now t (b.rows table)) r = .ok ()) ∧
        t' = insertRows db keyCols b.now t (b.rows table) ∧ n = t'.length - t.length := by
  have hflat : (chunks chunkSize (b.rows table)).flatten = b.rows table := flatten_chunks (by decide) _
  rw [insertImmutableRows, ← Batch.rows, insertChunks_eq_ok, (checkedInsert b.now).foldlM_eq_ok (by rwa [hflat]), hflat]
  simp only [Prod.mk.injEq, Nat.zero_add]
  refine and_congr_right fun _ => and_congr_right fun ht => ?_
  rw [ht]

theorem savepoint_eq_ok (hkeyed : ∀ r ∈ b.rows table, Keyed db keyCols r) : savepoint db table keyCols t b = (.ok n, t') ↔
    (∀ r ∈ b.rows table, checkRow table keyCols (insertRows db keyCols b.now t (b.rows table)) r = .ok ()) ∧
      t' = insertRows db keyCols b.now t (b.rows table) ∧ n = t'.length - t.length := by
  rw [← insertImmutableRows_eq_ok hkeyed, savepoint]
  split
  · next hrun => rw [hrun]
  · next hrun => simp [hrun]

theorem savepoint_error {error : RowError} (h : (savepoint db table keyCols t b).1 = .error error) :
    (savepoint db table keyCols t b).2 = t := by
  revert h
  rw [savepoint]
  split
  · exact nofun
  · exact fun _ => rfl

variable (db table keyCols) in
/-- The row that a key has, or gets from a batch: the stored one, or else the first that the batch presents for it. -/
def firstFor (t : List (StoredRow N)) (b : Batch N) (key : List (Cell N)) : Option (StoredRow N) :=
  (KeyedTable.find (storedKey keyCols) t key).or (KeyedTable.find (storedKey keyCols) ((b.rows table).map (db.store b.now)) key)

/-- A batch returns exactly when each of its rows agrees with the row of its key. -/
theorem returns_iff (hkeyed : ∀ r ∈ b.rows table, Keyed db keyCols r) : (∃ n, (savepoint db table keyCols t b).1 = .ok n) ↔
    ∀ r ∈ b.rows table, ∃ e, (rowKey keyCols r).bind (firstFor db table keyCols t b) = some e ∧ Agrees table keyCols e r := by
  have hfind : KeyedTable.find (storedKey keyCols) (insertRows db keyCols b.now t (b.rows table)) =
      firstFor db table keyCols t b := funext fun key => KeyedTable.find_insertAll _ _ key
  simp only [← hfind, ← checkRow_eq_ok]
  constructor
  · rintro ⟨n, hn⟩
    exact ((savepoint_eq_ok hkeyed).mp (Prod.ext hn rfl)).1
  · intro hall
    exact ⟨_, congrArg Prod.fst ((savepoint_eq_ok hkeyed).mpr ⟨hall, rfl, rfl⟩)⟩

/-! ### Runs -/

variable (db table keyCols) in
/-- The rows of the batches that returned, in the form in which they are stored. -/
def accepted : List (StoredRow N) → List (Batch N) → List (StoredRow N)
  | _, [] => []
  | t, b :: rest =>
    match savepoint db table keyCols t b with
    | (.ok _, t') => (b.rows table).map (db.store b.now) ++ accepted t' rest
    | (.error _, t') => accepted t' rest

/-- A run inserts the rows of the batches that returned, and nothing else. -/
theorem runBatches_eq (hkeyed : ∀ b ∈ bs, ∀ r ∈ b.rows table, Keyed db keyCols r) : (runBatches db table keyCols t bs).2 =
    KeyedTable.insertAll (storedKey keyCols) t (accepted db table keyCols t bs) := by
  induction bs generalizing t with
  | nil => rfl
  | cons b bs ih =>
    obtain ⟨hb, hbs⟩ := List.forall_mem_cons.mp hkeyed
    rw [runBatches, accepted]
    dsimp only
    rw [ih hbs]
    cases h : savepoint db table keyCols t b with
    | mk result t' =>
      cases result with
      | error error =>
        have ht' : t' = t := by
          have heq := savepoint_error (congrArg Prod.fst h)
          rwa [h] at heq
        rw [ht']
      | ok n =>
        obtain ⟨-, rfl, -⟩ := (savepoint_eq_ok hb).mp h
        rw [KeyedTable.insertAll_append]
        rfl

/-- If every batch returned, every row presented agrees with what the table holds at the end. -/
theorem checkRow_runBatches (hkeyed : ∀ b ∈ bs, ∀ r ∈ b.rows table, Keyed db keyCols r)
    (hall : ∀ result ∈ (runBatches db table keyCols t bs).1, ∃ n, result = .ok n) :
    ∀ b ∈ bs, ∀ r ∈ b.rows table, checkRow table keyCols (runBatches db table keyCols t bs).2 r = .ok () := by
  induction bs generalizing t with
  | nil => exact nofun
  | cons b bs ih =>
    obtain ⟨hb, hbs⟩ := List.forall_mem_cons.mp hkeyed
    obtain ⟨⟨n, hn⟩, hrest⟩ := List.forall_mem_cons.mp hall
    obtain ⟨hchecked, hafter, -⟩ := (savepoint_eq_ok hb).mp (Prod.ext hn rfl)
    refine List.forall_mem_cons.mpr ⟨fun r hr => ?_, ih hbs hrest⟩
    have hthen := checkRow_insertAll (hchecked r hr) (accepted db table keyCols (savepoint db table keyCols t b).2 bs)
    rw [← hafter, ← runBatches_eq hbs] at hthen
    exact hthen

/-! ### Replay -/

variable (table keyCols) in
/-- The same evidence: rows that may differ in the columns that only say when they were written. -/
def SameEvidence (m m' : Dict String (Cell N)) : Prop :=
  ∀ col, col ∈ keyCols ∨ col ∈ payloadCols table keyCols → (rowOf table m').get? col = (rowOf table m).get? col

variable (table keyCols) in
/-- A batch that presents the same evidence again. -/
def Replays (b b' : Batch N) : Prop := List.Forall₂ (SameEvidence table keyCols) b.models b'.models

omit [DecidableEq N] in
theorem Keyed.same {m m' : Dict String (Cell N)} (h : Keyed db keyCols (rowOf table m)) (hsame : SameEvidence table keyCols m m') :
    Keyed db keyCols (rowOf table m') := by
  intro k hk
  obtain ⟨v, hv, hback⟩ := h k hk
  exact ⟨v, (hsame k (.inl hk)).trans hv, hback⟩

theorem checkRow_same {m m' : Dict String (Cell N)} (hsame : SameEvidence table keyCols m m')
    (h : checkRow table keyCols t (rowOf table m) = .ok ()) : checkRow table keyCols t (rowOf table m') = .ok () := by
  obtain ⟨e, he, hagrees⟩ := checkRow_eq_ok.mp h
  refine checkRow_eq_ok.mpr ⟨e, ?_, fun col hcol v hv => ?_⟩
  · rw [rowKey_congr fun k hk => hsame k (.inl hk), he]
  · exact hagrees col hcol v ((hsame col (.inr hcol)).symm.trans hv)

/-- A batch of rows that all agree with the table changes nothing and inserts nothing. -/
theorem savepoint_of_checked (hkeyed : ∀ r ∈ b.rows table, Keyed db keyCols r)
    (hchecked : ∀ r ∈ b.rows table, checkRow table keyCols t r = .ok ()) : savepoint db table keyCols t b = (.ok 0, t) := by
  have hsame : insertRows db keyCols b.now t (b.rows table) = t := by
    refine KeyedTable.insertAll_of_forall_some fun e he => ?_
    obtain ⟨r, hr, rfl⟩ := List.mem_map.mp he
    obtain ⟨e, he, -⟩ := checkRow_eq_ok.mp (hchecked r hr)
    rw [rowKey_eq (hkeyed r hr) b.now, Option.bind_some] at he
    rw [he]
    rfl
  refine (savepoint_eq_ok hkeyed).mpr ⟨?_, hsame.symm, (Nat.sub_self _).symm⟩
  rwa [hsame]

theorem runBatches_of_checked (hkeyed : ∀ b ∈ bs, ∀ r ∈ b.rows table, Keyed db keyCols r)
    (hchecked : ∀ b ∈ bs, ∀ r ∈ b.rows table, checkRow table keyCols t r = .ok ()) :
    runBatches db table keyCols t bs = (bs.map fun _ => .ok 0, t) := by
  induction bs with
  | nil => rfl
  | cons b bs ih =>
    obtain ⟨hb, hbs⟩ := List.forall_mem_cons.mp hkeyed
    obtain ⟨hc, hcs⟩ := List.forall_mem_cons.mp hchecked
    rw [runBatches, savepoint_of_checked hb hc]
    dsimp only
    rw [ih hbs hcs]
    rfl

theorem replays_checked (hreplay : List.Forall₂ (Replays table keyCols) bs bs')
    (hkeyed : ∀ b ∈ bs, ∀ r ∈ b.rows table, Keyed db keyCols r)
    (hchecked : ∀ b ∈ bs, ∀ r ∈ b.rows table, checkRow table keyCols t r = .ok ()) : ∀ b' ∈ bs', ∀ r' ∈ b'.rows table,
      Keyed db keyCols r' ∧ checkRow table keyCols t r' = .ok () := by
  intro b' hb' r' hr'
  obtain ⟨b, hb, hrows⟩ := Forall₂.exists_of_mem_right hreplay hb'
  obtain ⟨m', hm', rfl⟩ := List.mem_map.mp hr'
  obtain ⟨m, hm, hsame⟩ := Forall₂.exists_of_mem_right hrows hm'
  have hr : rowOf table m ∈ b.rows table := List.mem_map_of_mem hm
  exact ⟨(hkeyed b hb _ hr).same hsame, checkRow_same hsame (hchecked b hb _ hr)⟩

/-- Over any batches on any table: a key keeps its first row, a batch returns exactly when its rows agree with the rows of
    their keys, one that raises leaves the table, and a replay of batches that returned inserts nothing. -/
theorem immutable_tables (hkeyed : ∀ b ∈ bs, ∀ r ∈ b.rows table, Keyed db keyCols r) :
    (∀ key, KeyedTable.find (storedKey keyCols) (runBatches db table keyCols t bs).2 key =
      (KeyedTable.find (storedKey keyCols) t key).or
        (KeyedTable.find (storedKey keyCols) (accepted db table keyCols t bs) key)) ∧
    (∀ u, ∀ b ∈ bs, (∃ n, (savepoint db table keyCols u b).1 = .ok n) ↔
      ∀ r ∈ b.rows table, ∃ e, (rowKey keyCols r).bind (firstFor db table keyCols u b) = some e ∧ Agrees table keyCols e r) ∧
    (∀ u, ∀ b ∈ bs, ∀ error, (savepoint db table keyCols u b).1 = .error error → (savepoint db table keyCols u b).2 = u) ∧
    ((∀ result ∈ (runBatches db table keyCols t bs).1, ∃ n, result = .ok n) → ∀ bs', List.Forall₂ (Replays table keyCols) bs bs' →
      runBatches db table keyCols (runBatches db table keyCols t bs).2 bs' =
        (bs'.map fun _ => .ok 0, (runBatches db table keyCols t bs).2)) := by
  refine ⟨fun key => ?_, fun u b hb => returns_iff (hkeyed b hb), fun u b _ error => savepoint_error, fun hall bs' hreplay => ?_⟩
  · rw [runBatches_eq hkeyed, KeyedTable.find_insertAll]
  · have hchecked := replays_checked hreplay hkeyed (checkRow_runBatches hkeyed hall)
    exact runBatches_of_checked (fun b hb r hr => (hchecked b hb r hr).1) fun b hb r hr => (hchecked b hb r hr).2

/-- Every writer passes columns of its table that are compared with nothing and written at no time of their own. -/
theorem immutableWriters_keys : ∀ w ∈ immutableWriters, ∀ k ∈ w.2, k ∈ w.1.columns ∧ k ∉ writeTime := by decide

/-! ### Halt requests in two zones -/

/-- A database that reads an instant back in UTC. -/
def utcDatabase : Database ℚ where
  readBack _ v :=
    match v with
    | .datetime d => .datetime ⟨d.instant, 0⟩
    | v => v
  default now col := if col = "ingested_at" then .datetime now else .none

def haltRequest (tau : AwareDatetime) : Dict String (Cell ℚ) :=
  ⟨[("run_id", .uuid ⟨7⟩), ("trigger", .enum (.text "manual")), ("tau", .datetime tau), ("status", .enum (.text "symbols_pending")),
    ("requested_at", .datetime ⟨0, 0⟩), ("source_version", .text "halt_request_v1")], by simp⟩

/-- One instant in two zones in one batch, and another instant in the next. -/
def haltBatches : List (Batch ℚ) :=
  [⟨⟨0, 0⟩, [haltRequest ⟨0, 0⟩, haltRequest ⟨0, 3600000000⟩]⟩, ⟨⟨1, 0⟩, [haltRequest ⟨1, 0⟩]⟩]

theorem keyed_haltRequest (tau : AwareDatetime) :
    Keyed utcDatabase ["run_id", "trigger"] (rowOf haltReferenceRequests (haltRequest tau)) := by
  refine List.forall_mem_cons.mpr ⟨⟨.uuid ⟨7⟩, rfl, rfl⟩, List.forall_mem_singleton.mpr ⟨.text "manual", rfl, rfl⟩⟩

theorem haltBatches_immutable : (fun key => KeyedTable.find (storedKey ["run_id", "trigger"])
      (runBatches utcDatabase haltReferenceRequests ["run_id", "trigger"] [] haltBatches).2 key) =
    fun key => (none : Option (StoredRow ℚ)).or (KeyedTable.find (storedKey ["run_id", "trigger"])
      (accepted utcDatabase haltReferenceRequests ["run_id", "trigger"] [] haltBatches) key) := by
  refine funext (immutable_tables fun b hb r hr => ?_).1
  obtain ⟨m, hm, rfl⟩ := List.mem_map.mp hr
  rcases List.mem_cons.mp hb with rfl | hb
  · rcases List.mem_cons.mp hm with rfl | hm
    · exact keyed_haltRequest _
    · rw [List.mem_singleton.mp hm]
      exact keyed_haltRequest _
  · rw [List.mem_singleton.mp hb] at hm
    rw [List.mem_singleton.mp hm]
    exact keyed_haltRequest _

end Rows
end Store
end AsymmetricCommittee
