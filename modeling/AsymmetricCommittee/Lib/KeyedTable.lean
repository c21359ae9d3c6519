import Mathlib.Data.List.Nodup
import Mathlib.Data.List.Infix

/-! Tables with a key: lists of rows in which no two rows share a key. An insertion that leaves an existing
    row alone (`ON CONFLICT DO NOTHING`) only appends, so what a key finds never changes. -/

namespace KeyedTable
variable {ρ κ : Type*} [DecidableEq κ] (key : ρ → κ)

/-- The row with the key. -/
def find (t : List ρ) (k : κ) : Option ρ := t.find? fun r => key r = k

/-- `INSERT ... ON CONFLICT DO NOTHING` of one row. -/
def insertNew (t : List ρ) (r : ρ) : List ρ := if (find key t (key r)).isSome then t else t ++ [r]

/-- `INSERT ... ON CONFLICT DO NOTHING` of several rows; a row also conflicts with an earlier one. -/
def insertAll (t rs : List ρ) : List ρ := rs.foldl (insertNew key) t

/-- `UPDATE` of the row with the key. -/
def modify (t : List ρ) (k : κ) (f : ρ → ρ) : List ρ := t.map fun r => if key r = k then f r else r

/-- No two rows share a key. -/
def Unique (t : List ρ) : Prop := (t.map key).Nodup

variable {key} {t t' rs rs' : List ρ} {r r' : ρ} {k : κ}

/-! ### Lookup -/

theorem find_some (h : find key t k = some r) : r ∈ t ∧ key r = k :=
  ⟨List.mem_of_find?_eq_some h, by simpa using List.find?_some h⟩

theorem find_eq_none : find key t k = none ↔ ∀ r ∈ t, key r ≠ k := by simp [find]

theorem find_eq_some (hu : Unique key t) : find key t k = some r ↔ r ∈ t ∧ key r = k := by
  refine ⟨find_some, fun ⟨hr, hk⟩ => ?_⟩
  cases h : find key t k with
  | none => exact absurd hk (find_eq_none.mp h r hr)
  | some r' =>
    obtain ⟨hr', hk'⟩ := find_some h
    rw [List.inj_on_of_nodup_map hu hr' hr (hk'.trans hk.symm)]

theorem find_isSome (hr : r ∈ t) : (find key t (key r)).isSome := by
  rw [Option.isSome_iff_ne_none]
  exact fun h => find_eq_none.mp h r hr rfl

theorem find_cons (r : ρ) (t : List ρ) (k : κ) : find key (r :: t) k = if key r = k then some r else find key t k := by
  by_cases h : key r = k <;> simp [find, h]

theorem find_append (t t' : List ρ) (k : κ) : find key (t ++ t') k = (find key t k).or (find key t' k) :=
  List.find?_append

theorem find_filter {p : ρ → Bool} (h : ∀ r ∈ t, key r = k → p r = true) : find key (t.filter p) k = find key t k := by
  induction t with
  | nil => rfl
  | cons r t ih =>
    have ht := ih fun x hx => h x (List.mem_cons_of_mem r hx)
    rw [find_cons, List.filter_cons]
    by_cases hk : key r = k
    · rw [if_pos (h r List.mem_cons_self hk), find_cons, if_pos hk, if_pos hk]
    · rw [if_neg hk]
      split
      · rw [find_cons, if_neg hk, ht]
      · exact ht

/-! ### Insertion -/

theorem insertNew_of_some (h : find key t (key r) = some r') : insertNew key t r = t := by
  simp [insertNew, h]

theorem insertNew_of_none (h : find key t (key r) = none) : insertNew key t r = t ++ [r] := by
  simp [insertNew, h]

theorem find_insertNew (t : List ρ) (r : ρ) (k : κ) :
    find key (insertNew key t r) k = (find key t k).or (find key [r] k) := by
  cases h : find key t (key r) with
  | none => rw [insertNew_of_none h, find_append]
  | some r' =>
    rw [insertNew_of_some h]
    by_cases hk : key r = k
    · rw [← hk, h, Option.some_or]
    · rw [show find key [r] k = none from find_eq_none.mpr fun x hx => by rwa [List.mem_singleton.mp hx], Option.or_none]

/-- A key finds what it found before, or else the first row inserted with it. -/
theorem find_insertAll (t rs : List ρ) (k : κ) :
    find key (insertAll key t rs) k = (find key t k).or (find key rs k) := by
  induction rs generalizing t with
  | nil => rw [show find key ([] : List ρ) k = none from rfl, Option.or_none]; rfl
  | cons r rs ih =>
    rw [show insertAll key t (r :: rs) = insertAll key (insertNew key t r) rs from rfl, ih, find_insertNew,
      Option.or_assoc, ← find_append, List.singleton_append]

theorem find_insertAll_of_some (h : find key t k = some r) : find key (insertAll key t rs) k = some r := by
  rw [find_insertAll, h, Option.some_or]

theorem insertAll_append (t rs rs' : List ρ) : insertAll key t (rs ++ rs') = insertAll key (insertAll key t rs) rs' :=
  List.foldl_append

theorem prefix_insertAll (t rs : List ρ) : t <+: insertAll key t rs := by
  induction rs generalizing t with
  | nil => exact List.prefix_refl t
  | cons r rs ih =>
    refine List.IsPrefix.trans ?_ (ih (insertNew key t r))
    unfold insertNew
    split
    · exact List.prefix_refl t
    · exact List.prefix_append t [r]

theorem mem_insertAll_of_mem (h : r ∈ t) : r ∈ insertAll key t rs := (prefix_insertAll t rs).subset h

theorem unique_insertNew (hu : Unique key t) (r : ρ) : Unique key (insertNew key t r) := by
  cases h : find key t (key r) with
  | some r' => rwa [insertNew_of_some h]
  | none =>
    rw [insertNew_of_none h, Unique, List.map_append, List.map_singleton]
    refine List.nodup_append.mpr ⟨hu, List.nodup_singleton _, fun a ha b hb => ?_⟩
    obtain ⟨x, hx, rfl⟩ := List.mem_map.mp ha
    rw [List.mem_singleton.mp hb]
    exact find_eq_none.mp h x hx

theorem unique_insertAll (hu : Unique key t) (rs : List ρ) : Unique key (insertAll key t rs) := by
  induction rs generalizing t with
  | nil => exact hu
  | cons r rs ih => exact ih (unique_insertNew hu r)

/-- A row of the result was there, or is the first one inserted with a key that was not. -/
theorem mem_insertAll (hu : Unique key t) :
    r ∈ insertAll key t rs ↔ r ∈ t ∨ find key t (key r) = none ∧ find key rs (key r) = some r := by
  rw [← and_iff_left (a := r ∈ insertAll key t rs) (rfl : key r = key r),
    ← find_eq_some (unique_insertAll hu rs), find_insertAll]
  cases h : find key t (key r) with
  | none =>
    have hr : r ∉ t := fun hr => find_eq_none.mp h r hr rfl
    simp [hr]
  | some r' =>
    rw [Option.some_or, ← h, find_eq_some hu]
    simp [h]

theorem mem_of_mem_insertAll (h : r ∈ insertAll key t rs) : r ∈ t ∨ r ∈ rs := by
  induction rs generalizing t with
  | nil => exact Or.inl h
  | cons x rs ih =>
    rcases ih h with hr | hr
    · unfold insertNew at hr
      split at hr
      · exact Or.inl hr
      · rcases List.mem_append.mp hr with hr | hr
        · exact Or.inl hr
        · exact Or.inr (List.mem_cons.mpr (Or.inl (List.mem_singleton.mp hr)))
    · exact Or.inr (List.mem_cons_of_mem x hr)

/-- Where rows with one key are one row, what is inserted is there. -/
theorem mem_insertAll_of_agree (h : ∀ a, a ∈ t ∨ a ∈ rs → ∀ b, b ∈ t ∨ b ∈ rs → key a = key b → a = b) (hr : r ∈ t ∨ r ∈ rs) :
    r ∈ insertAll key t rs := by
  have hsome : (find key (insertAll key t rs) (key r)).isSome := by
    rw [find_insertAll, Option.isSome_or, Bool.or_eq_true]
    exact hr.imp find_isSome find_isSome
  obtain ⟨r', hr'⟩ := Option.isSome_iff_exists.mp hsome
  obtain ⟨hmem, hkey⟩ := find_some hr'
  have hsame : r' = r := h r' (mem_of_mem_insertAll hmem) r hr hkey
  exact hsame ▸ hmem

theorem insertAll_of_forall_some (h : ∀ r ∈ rs, (find key t (key r)).isSome) : insertAll key t rs = t := by
  induction rs with
  | nil => rfl
  | cons r rs ih =>
    obtain ⟨r', hr'⟩ := Option.isSome_iff_exists.mp (h r List.mem_cons_self)
    rw [show insertAll key t (r :: rs) = insertAll key (insertNew key t r) rs from rfl, insertNew_of_some hr']
    exact ih fun x hx => h x (List.mem_cons_of_mem r hx)

theorem filter_insertAll {p : ρ → Bool} (h : ∀ r ∈ rs, p r = false) : (insertAll key t rs).filter p = t.filter p := by
  induction rs generalizing t with
  | nil => rfl
  | cons r rs ih =>
    rw [show insertAll key t (r :: rs) = insertAll key (insertNew key t r) rs from rfl,
      ih fun x hx => h x (List.mem_cons_of_mem r hx)]
    unfold insertNew
    split
    · rfl
    · simp [h r List.mem_cons_self]

/-- Rows with new keys, all different, are appended. -/
theorem insertAll_of_fresh (hfresh : ∀ r ∈ rs, find key t (key r) = none) (hu : Unique key rs) :
    insertAll key t rs = t ++ rs := by
  induction rs generalizing t with
  | nil => exact (List.append_nil t).symm
  | cons r rs ih =>
    rw [Unique, List.map_cons, List.nodup_cons] at hu
    rw [show insertAll key t (r :: rs) = insertAll key (insertNew key t r) rs from rfl,
      insertNew_of_none (hfresh r List.mem_cons_self), ih ?_ hu.2, List.append_assoc, List.singleton_append]
    intro x hx
    rw [find_append, hfresh x (List.mem_cons_of_mem r hx), Option.none_or]
    refine find_eq_none.mpr fun y hy hkey => hu.1 ?_
    rw [← List.mem_singleton.mp hy, hkey]
    exact List.mem_map_of_mem hx

/-! ### Update -/

theorem find_modify {f : ρ → ρ} (hf : ∀ r, key (f r) = key r) (t : List ρ) (k k' : κ) :
    find key (modify key t k f) k' = if k' = k then (find key t k').map f else find key t k' := by
  have hkey : ∀ r, key (if key r = k then f r else r) = key r := by
    intro r
    split
    · exact hf r
    · rfl
  induction t with
  | nil => simp [find, modify]
  | cons r t ih =>
    rw [modify, List.map_cons, find_cons, find_cons, hkey, ← modify, ih]
    by_cases hr : key r = k'
    · rw [if_pos hr, if_pos hr, hr]
      split <;> rfl
    · rw [if_neg hr, if_neg hr]

theorem modify_of_find_none {f : ρ → ρ} (h : find key t k = none) : modify key t k f = t := by
  refine (List.map_congr_left fun r hr => ?_).trans (List.map_id t)
  exact if_neg (find_eq_none.mp h r hr)

theorem unique_modify {f : ρ → ρ} (hf : ∀ r, key (f r) = key r) (hu : Unique key t) : Unique key (modify key t k f) := by
  have hkeys : (modify key t k f).map key = t.map key := by
    rw [modify, List.map_map]
    refine List.map_congr_left fun r _ => ?_
    simp only [Function.comp_apply]
    split
    · exact hf r
    · rfl
  rw [Unique, hkeys]
  exact hu

end KeyedTable

/-! ### Chunks -/

/-- The slices of `n` items of a list, in order. -/
def chunks {α : Type*} (n : Nat) (l : List α) : List (List α) :=
  (List.range ((l.length + n - 1) / n)).map fun i => (l.drop (i * n)).take n

theorem flatten_chunks {α : Type*} {n : Nat} (hn : 0 < n) (l : List α) : (chunks n l).flatten = l := by
  have htake : ∀ k, ((List.range k).map fun i => (l.drop (i * n)).take n).flatten = l.take (k * n) := by
    intro k
    induction k with
    | zero => simp
    | succ k ih =>
      rw [List.range_succ, List.map_append, List.flatten_append, ih, Nat.succ_mul, List.take_add]
      simp
  rw [chunks, htake, List.take_of_length_le]
  have hlt := Nat.lt_mul_div_succ (l.length + n - 1) hn
  rw [Nat.mul_add, Nat.mul_one, Nat.mul_comm n] at hlt
  omega
