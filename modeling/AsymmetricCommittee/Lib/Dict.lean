import AsymmetricCommittee.Lib.Except
import Mathlib.Data.List.Nodup
import Mathlib.Data.List.Sort
import Mathlib.Algebra.Order.Field.Basic
import Mathlib.Algebra.Order.BigOperators.Group.List

/-! Insertion-ordered dictionaries, and the order in which one weighting of the keys shrinks another. -/

/-- A dictionary in insertion order: no key occurs twice. -/
structure Dict (κ ν : Type*) where
  entries : List (κ × ν)
  nodup : (entries.map Prod.fst).Nodup

namespace Dict
variable {κ ν ν' : Type*}

/-- The empty dictionary. -/
def empty : Dict κ ν := ⟨[], List.nodup_nil⟩

def keys (d : Dict κ ν) : List κ := d.entries.map Prod.fst

/-- `d.get(k)`. -/
def get? [BEq κ] (d : Dict κ ν) (k : κ) : Option ν := d.entries.lookup k

def values (d : Dict κ ν) : List ν := d.entries.map Prod.snd

/-- `d[k] = v`: an existing key keeps its place. -/
def set [DecidableEq κ] (d : Dict κ ν) (k : κ) (v : ν) : Dict κ ν where
  entries := if k ∈ d.keys then d.entries.map fun e => (e.1, if e.1 = k then v else e.2) else d.entries ++ [(k, v)]
  nodup := by
    split
    · simpa [List.map_map, Function.comp_def] using d.nodup
    · next hk =>
      rw [List.map_append, List.map_singleton]
      refine List.nodup_append.mpr ⟨d.nodup, List.nodup_singleton k, fun a ha b hb hab => hk ?_⟩
      have hbk : b = k := List.mem_singleton.mp hb
      rwa [← hbk, ← hab]

/-- A comprehension over the items that keeps the keys it keeps. -/
def filterMap (d : Dict κ ν) (f : κ → ν → Option ν') : Dict κ ν' where
  entries := d.entries.filterMap fun e => (f e.1 e.2).map fun v => (e.1, v)
  nodup := by
    have hsub : ((d.entries.filterMap fun e => (f e.1 e.2).map fun v => (e.1, v)).map Prod.fst).Sublist
        (d.entries.map Prod.fst) := by
      induction d.entries with
      | nil => exact List.Sublist.slnil
      | cons e l ih =>
        cases h : f e.1 e.2 with
        | none => simpa [List.filterMap_cons, h] using ih.cons e.1
        | some v => simpa [List.filterMap_cons, h] using ih.cons_cons e.1
    exact d.nodup.sublist hsub

/-- A comprehension over the items that keeps every key. -/
def map (d : Dict κ ν) (f : κ → ν → ν') : Dict κ ν' where
  entries := d.entries.map fun e => (e.1, f e.1 e.2)
  nodup := by simpa [List.map_map, Function.comp_def] using d.nodup

/-- The items in sorted order. -/
def sort (d : Dict κ ν) (le : κ × ν → κ × ν → Bool) : Dict κ ν where
  entries := d.entries.mergeSort le
  nodup := ((List.mergeSort_perm d.entries le).map Prod.fst).nodup_iff.mpr d.nodup

/-- The first `n` items. -/
def take (d : Dict κ ν) (n : Nat) : Dict κ ν where
  entries := d.entries.take n
  nodup := d.nodup.sublist ((List.take_sublist n d.entries).map Prod.fst)

@[simp] theorem entries_map (d : Dict κ ν) (f : κ → ν → ν') :
    (d.map f).entries = d.entries.map fun e => (e.1, f e.1 e.2) := rfl

@[simp] theorem entries_take (d : Dict κ ν) (n : Nat) : (d.take n).entries = d.entries.take n := rfl

@[simp] theorem entries_sort (d : Dict κ ν) (le : κ × ν → κ × ν → Bool) :
    (d.sort le).entries = d.entries.mergeSort le := rfl

theorem mem_filterMap {d : Dict κ ν} {f : κ → ν → Option ν'} {k : κ} {v' : ν'} :
    (k, v') ∈ (d.filterMap f).entries ↔ ∃ v, (k, v) ∈ d.entries ∧ f k v = some v' := by
  simp only [filterMap, List.mem_filterMap, Option.map_eq_some_iff, Prod.mk.injEq, Prod.exists]
  constructor
  · rintro ⟨a, v, hm, w, hf, rfl, rfl⟩
    exact ⟨v, hm, hf⟩
  · rintro ⟨v, hm, hf⟩
    exact ⟨k, v, hm, v', hf, rfl, rfl⟩

theorem get?_eq_some [BEq κ] [LawfulBEq κ] {d : Dict κ ν} {k : κ} {v : ν} :
    d.get? k = some v ↔ (k, v) ∈ d.entries := by
  obtain ⟨l, hl⟩ := d
  simp only [get?]
  induction l with
  | nil => simp
  | cons e l ih =>
    obtain ⟨k', v'⟩ := e
    simp only [List.map_cons, List.nodup_cons, List.mem_map, not_exists, not_and] at hl
    rw [List.lookup_cons]
    by_cases hk : k = k'
    · subst hk
      have hnone : (k, v) ∉ l := fun hm => hl.1 _ hm rfl
      simp [hnone, eq_comm]
    · have hbeq : (k == k') = false := beq_eq_false_iff_ne.mpr hk
      simp [hbeq, ih hl.2, hk]

theorem get?_empty [BEq κ] (k : κ) : (empty : Dict κ ν).get? k = none := rfl

theorem get?_eq_none [BEq κ] [LawfulBEq κ] {d : Dict κ ν} {k : κ} : d.get? k = none ↔ k ∉ d.keys := by
  rw [Option.eq_none_iff_forall_ne_some]
  constructor
  · intro h hk
    obtain ⟨⟨k', v⟩, he, rfl⟩ := List.mem_map.mp hk
    exact h v (get?_eq_some.mpr he)
  · intro h v hv
    exact h (List.mem_map_of_mem (f := Prod.fst) (get?_eq_some.mp hv))

theorem get?_filterMap [BEq κ] [LawfulBEq κ] (d : Dict κ ν) (f : κ → ν → Option ν') (k : κ) :
    (d.filterMap f).get? k = (d.get? k).bind (f k) := by
  refine Option.ext fun v' => ?_
  rw [get?_eq_some, mem_filterMap, Option.bind_eq_some_iff]
  simp only [get?_eq_some]

/-- Dictionaries that hold the same have the same items. -/
theorem entries_perm [BEq κ] [LawfulBEq κ] {d d' : Dict κ ν} (h : ∀ k, d.get? k = d'.get? k) : d.entries.Perm d'.entries := by
  refine (List.perm_ext_iff_of_nodup d.nodup.of_map d'.nodup.of_map).mpr ?_
  intro ⟨k, v⟩
  rw [← get?_eq_some, ← get?_eq_some, h k]

/-- Sorting by an order that tells the items apart forgets in which order they were inserted. -/
theorem sort_eq_of_perm {d d' : Dict κ ν} {r : κ × ν → κ × ν → Prop} [DecidableRel r] [IsTrans _ r] [Std.Total r]
    (hp : d.entries.Perm d'.entries) (hanti : ∀ a ∈ d.entries, ∀ b ∈ d.entries, r a b → r b a → a = b) :
    (d.sort fun a b => decide (r a b)) = d'.sort fun a b => decide (r a b) := by
  have htrans : ∀ a b c, decide (r a b) = true → decide (r b c) = true → decide (r a c) = true := fun a b c hab hbc =>
    decide_eq_true (Trans.trans (of_decide_eq_true hab) (of_decide_eq_true hbc))
  have htotal : ∀ a b, (decide (r a b) || decide (r b a)) = true := fun a b => by
    simpa using Std.Total.total (r := r) a b
  have hsorted : ∀ l : List (κ × ν), (l.mergeSort fun a b => decide (r a b)).Pairwise r := fun l =>
    (List.pairwise_mergeSort htrans htotal l).imp fun hab => of_decide_eq_true hab
  have heq : (d.entries.mergeSort fun a b => decide (r a b)) = d'.entries.mergeSort fun a b => decide (r a b) := by
    refine List.Perm.eq_of_pairwise (fun a b ha hb => ?_) (hsorted _) (hsorted _)
      ((List.mergeSort_perm _ _).trans (hp.trans (List.mergeSort_perm _ _).symm))
    exact hanti a (List.mem_mergeSort.mp ha) b (hp.mem_iff.mpr (List.mem_mergeSort.mp hb))
  simp only [sort, heq]

theorem get?_set [DecidableEq κ] [BEq κ] [LawfulBEq κ] (d : Dict κ ν) (k : κ) (v : ν) (k' : κ) :
    (d.set k v).get? k' = if k' = k then some v else d.get? k' := by
  refine Option.ext fun w => ?_
  rw [get?_eq_some]
  by_cases hk : k ∈ d.keys
  · have hentries : (d.set k v).entries = d.entries.map fun e => (e.1, if e.1 = k then v else e.2) := if_pos hk
    rw [hentries, List.mem_map]
    constructor
    · rintro ⟨⟨a, b⟩, he, heq⟩
      cases heq
      split
      · rfl
      · exact get?_eq_some.mpr he
    · intro h
      split at h
      · next hkk =>
        cases h
        obtain ⟨⟨a, b⟩, he, hak⟩ := List.mem_map.mp hk
        exact ⟨(a, b), he, by simp_all⟩
      · next hkk => exact ⟨(k', w), get?_eq_some.mp h, by simp [hkk]⟩
  · have hentries : (d.set k v).entries = d.entries ++ [(k, v)] := if_neg hk
    rw [hentries, List.mem_append, List.mem_singleton, ← get?_eq_some, Prod.mk.injEq]
    split
    · next hkk =>
      rw [hkk, get?_eq_none.mpr hk]
      simp [eq_comm]
    · next hkk => simp [hkk]

theorem mem_keys [BEq κ] [LawfulBEq κ] {d : Dict κ ν} {k : κ} : k ∈ d.keys ↔ (d.get? k).isSome := by
  rw [← Option.ne_none_iff_isSome, ne_eq, get?_eq_none, not_not]

theorem mem_keys_set [DecidableEq κ] [BEq κ] [LawfulBEq κ] {d : Dict κ ν} {k : κ} {v : ν} {k' : κ} :
    k' ∈ (d.set k v).keys ↔ k' = k ∨ k' ∈ d.keys := by
  rw [mem_keys, mem_keys, get?_set]
  split
  · next h => simp [h]
  · next h => simp [h]

theorem mem_keys_sort {d : Dict κ ν} {le : κ × ν → κ × ν → Bool} {k : κ} : k ∈ (d.sort le).keys ↔ k ∈ d.keys :=
  ((List.mergeSort_perm d.entries le).map Prod.fst).mem_iff

section Assignments
variable [DecidableEq κ] [BEq κ] [LawfulBEq κ] {α : Type*} {key : α → κ} {value : α → ν}

theorem mem_keys_foldl_set {l : List α} {d : Dict κ ν} {k : κ} {next : Dict κ ν → α → ν} :
    k ∈ (l.foldl (fun d x => d.set (key x) (next d x)) d).keys ↔ k ∈ d.keys ∨ ∃ x ∈ l, key x = k := by
  induction l generalizing d with
  | nil => simp
  | cons x l ih =>
    rw [List.foldl_cons, ih, mem_keys_set, List.exists_mem_cons_iff, eq_comm]
    tauto

/-- What a key holds after a list of assignments is one of the values assigned to it, or what it held. -/
theorem of_get?_foldl_set {l : List α} {d : Dict κ ν} {k : κ} {v : ν}
    (h : (l.foldl (fun d x => d.set (key x) (value x)) d).get? k = some v) :
    (∃ x ∈ l, key x = k ∧ value x = v) ∨ d.get? k = some v := by
  induction l generalizing d with
  | nil => exact .inr h
  | cons x l ih =>
    rcases ih h with ⟨y, hy, hkey⟩ | hset
    · exact .inl ⟨y, List.mem_cons_of_mem x hy, hkey⟩
    · rw [get?_set] at hset
      split at hset
      · next hk => exact .inl ⟨x, List.mem_cons_self, hk.symm, Option.some.inj hset⟩
      · exact .inr hset

theorem isSome_get?_foldl_set {l : List α} {d : Dict κ ν} {k : κ}
    (h : (∃ x ∈ l, key x = k) ∨ (d.get? k).isSome) : ((l.foldl (fun d x => d.set (key x) (value x)) d).get? k).isSome := by
  induction l generalizing d with
  | nil =>
    rcases h with ⟨x, hx, -⟩ | h
    · cases hx
    · exact h
  | cons x l ih =>
    refine ih ?_
    rw [get?_set]
    rcases h with ⟨y, hy, hkey⟩ | h
    · rcases List.mem_cons.mp hy with rfl | hy
      · exact .inr (by rw [if_pos hkey.symm]; rfl)
      · exact .inl ⟨y, hy, hkey⟩
    · refine .inr ?_
      split
      · rfl
      · exact h

end Assignments

theorem ext_entries {d d' : Dict κ ν} (h : d.entries = d'.entries) : d = d' := by
  cases d
  cases d'
  cases h
  rfl

/-- A change of the values commutes with setting one. -/
theorem map_set [DecidableEq κ] (d : Dict κ ν) (f : ν → ν') (k : κ) (v : ν) :
    (d.set k v).map (fun _ => f) = (d.map fun _ => f).set k (f v) := by
  have hkeys : (d.map fun _ => f).keys = d.keys := by
    rw [keys, entries_map, List.map_map]
    rfl
  refine ext_entries ?_
  change List.map (fun e : κ × ν => (e.1, f e.2)) (if k ∈ d.keys then _ else _) = if k ∈ (d.map fun _ => f).keys then _ else _
  rw [hkeys]
  split
  · rw [entries_map, List.map_map, List.map_map]
    refine List.map_congr_left fun e _ => Prod.ext rfl ?_
    exact apply_ite f _ _ _
  · rw [entries_map, List.map_append, List.map_singleton]

theorem values_map (d : Dict κ ν) (f : ν → ν') : (d.map fun _ => f).values = d.values.map f := by
  rw [values, values, entries_map, List.map_map, List.map_map]
  rfl

theorem get?_map [BEq κ] (d : Dict κ ν) (f : ν → ν') (k : κ) : (d.map fun _ => f).get? k = (d.get? k).map f := by
  rw [get?, get?, entries_map]
  induction d.entries with
  | nil => rfl
  | cons e l ih =>
    rw [List.map_cons, List.lookup_cons, List.lookup_cons]
    cases k == e.1 with
    | true => rfl
    | false => exact ih

theorem mem_values [BEq κ] [LawfulBEq κ] {d : Dict κ ν} {v : ν} : v ∈ d.values ↔ ∃ k, d.get? k = some v := by
  simp only [values, List.mem_map, get?_eq_some, Prod.exists]
  exact ⟨fun ⟨k, _, hm, hv⟩ => ⟨k, hv ▸ hm⟩, fun ⟨k, hm⟩ => ⟨k, v, hm, rfl⟩⟩

end Dict

/-! ### Shrinking weights -/

section Shrinks
variable {κ K : Type*} [Field K] [LinearOrder K] {a b c : List (κ × K)}

/-- `b` weights the keys of `a`, each by no more and none negatively. -/
def Shrinks (a b : List (κ × K)) : Prop :=
  List.Forall₂ (fun x y => y.1 = x.1 ∧ 0 ≤ y.2 ∧ y.2 ≤ x.2) a b

theorem Shrinks.refl (h : ∀ x ∈ a, 0 ≤ x.2) : Shrinks a a :=
  List.forall₂_same.mpr fun x hx => ⟨rfl, h x hx, le_rfl⟩

theorem Shrinks.map {f : κ × K → K} (h : ∀ x ∈ a, 0 ≤ f x ∧ f x ≤ x.2) :
    Shrinks a (a.map fun x => (x.1, f x)) :=
  List.forall₂_map_right_iff.mpr (List.forall₂_same.mpr fun x hx => ⟨rfl, (h x hx).1, (h x hx).2⟩)

theorem Shrinks.trans (hab : Shrinks a b) (hbc : Shrinks b c) : Shrinks a c := by
  induction hab generalizing c with
  | nil => exact hbc
  | cons hxy _ ih =>
    cases hbc with
    | cons hyz hrest => exact .cons ⟨hyz.1.trans hxy.1, hyz.2.1, hyz.2.2.trans hxy.2.2⟩ (ih hrest)

theorem Shrinks.length_eq (h : Shrinks a b) : b.length = a.length := (List.Forall₂.length_eq h).symm

theorem Shrinks.keys_eq (h : Shrinks a b) : b.map Prod.fst = a.map Prod.fst := by
  induction h with
  | nil => rfl
  | cons hxy _ ih => rw [List.map_cons, List.map_cons, hxy.1, ih]

theorem Shrinks.mem (h : Shrinks a b) {y : κ × K} (hy : y ∈ b) : 0 ≤ y.2 ∧ ∃ x ∈ a, y.1 = x.1 ∧ y.2 ≤ x.2 := by
  induction h with
  | nil => cases hy
  | @cons x z l l' hxz _ ih =>
    rcases List.mem_cons.mp hy with rfl | hy
    · exact ⟨hxz.2.1, x, List.mem_cons_self, hxz.1, hxz.2.2⟩
    · obtain ⟨h0, x', hx', hle⟩ := ih hy
      exact ⟨h0, x', List.mem_cons_of_mem x hx', hle⟩

/-- A sum of a quantity that grows with each weight does not grow under shrinking. -/
theorem Shrinks.sum_le [IsStrictOrderedRing K] (h : Shrinks a b) (f : κ → K → K)
    (hf : ∀ k v w, 0 ≤ v → v ≤ w → f k v ≤ f k w) :
    (b.map fun x => f x.1 x.2).sum ≤ (a.map fun x => f x.1 x.2).sum := by
  induction h with
  | nil => exact le_rfl
  | @cons x y l l' hxy _ ih =>
    rw [List.map_cons, List.map_cons, List.sum_cons, List.sum_cons, hxy.1]
    exact add_le_add (hf x.1 y.2 x.2 hxy.2.1 hxy.2.2) ih

end Shrinks

/-! ### One weight lowered -/

section LowersOne
variable {κ K : Type*} [Preorder K] {k : κ} {S S' : K → K → Prop} {a b : List (κ × K)}

/-- `b` weights the keys of `a`: one key by no more, and each other in relation to its weight in `a`. -/
def LowersOne (k : κ) (S : K → K → Prop) (a b : List (κ × K)) : Prop :=
  List.Forall₂ (fun x y => y.1 = x.1 ∧ (x.1 = k → y.2 ≤ x.2) ∧ (x.1 ≠ k → S x.2 y.2)) a b

theorem LowersOne.keys_eq (h : LowersOne k S a b) : b.map Prod.fst = a.map Prod.fst := by
  induction h with
  | nil => rfl
  | cons hxy _ ih => rw [List.map_cons, List.map_cons, hxy.1, ih]

theorem LowersOne.mem (h : LowersOne k S a b) {w' : K} (hb : (k, w') ∈ b) : ∃ w, (k, w) ∈ a ∧ w' ≤ w := by
  obtain ⟨⟨k', w⟩, hx, hkey, hle, -⟩ := Forall₂.exists_of_mem_right h hb
  have hk : k = k' := hkey
  subst hk
  exact ⟨w, hx, hle rfl⟩

/-- A step that keeps the order of the key's weights, and takes the one relation of the others to another. -/
theorem LowersOne.map (h : LowersOne k S a b) {f g : κ × K → K}
    (hkey : ∀ x ∈ a, ∀ y ∈ b, x.1 = k → y.1 = k → y.2 ≤ x.2 → g y ≤ f x)
    (hother : ∀ x ∈ a, ∀ y ∈ b, y.1 = x.1 → x.1 ≠ k → S x.2 y.2 → S' (f x) (g y)) :
    LowersOne k S' (a.map fun x => (x.1, f x)) (b.map fun y => (y.1, g y)) := by
  induction h with
  | nil => exact .nil
  | @cons x y a b hxy _ ih =>
    obtain ⟨heq, hle, hS⟩ := hxy
    refine .cons ⟨heq, fun hx => ?_, fun hx => ?_⟩ (ih ?_ ?_)
    · exact hkey x List.mem_cons_self y List.mem_cons_self hx (heq.trans hx) (hle hx)
    · exact hother x List.mem_cons_self y List.mem_cons_self heq hx (hS hx)
    · exact fun x hx y hy => hkey x (List.mem_cons_of_mem _ hx) y (List.mem_cons_of_mem _ hy)
    · exact fun x hx y hy => hother x (List.mem_cons_of_mem _ hx) y (List.mem_cons_of_mem _ hy)

/-- The weights of the other keys. -/
theorem LowersOne.others [DecidableEq κ] (h : LowersOne k S a b) :
    List.Forall₂ (fun x y => y.1 = x.1 ∧ S x.2 y.2) (a.filter fun x => x.1 ≠ k) (b.filter fun y => y.1 ≠ k) := by
  induction h with
  | nil => exact .nil
  | @cons x y a b hxy _ ih =>
    obtain ⟨heq, -, hS⟩ := hxy
    rw [List.filter_cons, List.filter_cons, heq]
    by_cases hx : x.1 = k
    · rw [if_neg (by simp [hx]), if_neg (by simp [hx])]
      exact ih
    · rw [if_pos (by simp [hx]), if_pos (by simp [hx])]
      exact .cons ⟨heq, hS hx⟩ ih

end LowersOne

/-- If no weight grows, the weights shrink. -/
theorem LowersOne.shrinks {κ K : Type*} [Field K] [LinearOrder K] {k : κ} {S : K → K → Prop} {a b : List (κ × K)}
    (h : LowersOne k S a b) (hS : ∀ v w, S v w → w ≤ v) (hnonneg : ∀ y ∈ b, 0 ≤ y.2) : Shrinks a b := by
  induction h with
  | nil => exact .nil
  | @cons x y a b hxy _ ih =>
    obtain ⟨heq, hle, hother⟩ := hxy
    refine .cons ⟨heq, hnonneg y List.mem_cons_self, ?_⟩ (ih fun z hz => hnonneg z (List.mem_cons_of_mem _ hz))
    by_cases hx : x.1 = k
    · exact hle hx
    · exact hS _ _ (hother hx)

/-- A sum over a list that has a key once is its term and the sum over the others. -/
theorem sum_eq_term_add_others {κ ν K : Type*} [DecidableEq κ] [AddCommMonoid K] {l : List (κ × ν)}
    (hl : (l.map Prod.fst).Nodup) {k : κ} {v : ν} (h : (k, v) ∈ l) (f : κ × ν → K) :
    (l.map f).sum = f (k, v) + ((l.filter fun x => x.1 ≠ k).map f).sum := by
  induction l with
  | nil => cases h
  | cons x l ih =>
    rw [List.map_cons, List.nodup_cons] at hl
    rw [List.map_cons, List.sum_cons, List.filter_cons]
    rcases List.mem_cons.mp h with rfl | hmem
    · have hall : l.filter (fun x => x.1 ≠ k) = l := by
        refine List.filter_eq_self.mpr fun y hy => ?_
        rw [decide_eq_true_eq]
        exact fun hk => hl.1 (List.mem_map.mpr ⟨y, hy, hk⟩)
      rw [if_neg (by simp), hall]
    · have hx : x.1 ≠ k := fun hk => hl.1 (hk ▸ List.mem_map_of_mem hmem)
      rw [if_pos (by simp [hx]), List.map_cons, List.sum_cons, ih hl.2 hmem, add_left_comm]
