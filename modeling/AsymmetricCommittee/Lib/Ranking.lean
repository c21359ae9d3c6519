import AsymmetricCommittee.Lib.Dict
import Mathlib

/-! The top of a ranking. In a list sorted by an order, an element is among the first `n` exactly when fewer than `n`
    elements come strictly before it. The order of a ranking by score puts the higher score first, and the lower key first
    among equal scores. -/

section Ranking
variable {α : Type*} {r : α → α → Prop} [DecidableRel r] {l m : List α} {x : α}

/-- How many elements of the list come strictly before `x`. -/
def countBefore (r : α → α → Prop) [DecidableRel r] (l : List α) (x : α) : Nat := l.countP fun y => ¬r x y

theorem countBefore_perm (h : l.Perm m) (x : α) : countBefore r l x = countBefore r m x := h.countP_eq _

/-- What comes before an element of a sorted list is what stands before it. -/
theorem countBefore_append {front back : List α} (hs : (front ++ x :: back).Pairwise r) (hrefl : r x x)
    (hanti : ∀ y ∈ front, r x y → r y x → x = y) (hfront : x ∉ front) : countBefore r (front ++ x :: back) x = front.length := by
  obtain ⟨-, hback, hacross⟩ := List.pairwise_append.mp hs
  have hafter : ∀ y ∈ x :: back, r x y := fun y hy => by
    rcases List.mem_cons.mp hy with rfl | hy
    · exact hrefl
    · exact List.rel_of_pairwise_cons hback hy
  unfold countBefore
  rw [List.countP_append, List.countP_eq_length.mpr, List.countP_eq_zero.mpr, Nat.add_zero]
  · intro y hy
    rw [decide_eq_true_iff, not_not]
    exact hafter y hy
  · intro y hy
    have hyx : r y x := hacross y hy x List.mem_cons_self
    refine decide_eq_true fun hxy => hfront ?_
    rw [hanti y hy hxy hyx]
    exact hy

/-- An element is among the first `n` of a sorted list without repetition iff fewer than `n` come before it. -/
theorem mem_take_iff_countBefore (hs : l.Pairwise r) (hn : l.Nodup) (hx : x ∈ l) (hrefl : r x x)
    (hanti : ∀ y ∈ l, r x y → r y x → x = y) (n : Nat) : x ∈ l.take n ↔ countBefore r l x < n := by
  obtain ⟨front, back, rfl⟩ := List.append_of_mem hx
  have hfront : x ∉ front := fun h => (List.nodup_append.mp hn).2.2 x h x List.mem_cons_self rfl
  rw [countBefore_append hs hrefl (fun y hy => hanti y (List.mem_append_left _ hy)) hfront]
  constructor
  · intro h
    by_contra hle
    rw [List.take_append_of_le_length (Nat.not_lt.mp hle)] at h
    exact hfront (List.mem_of_mem_take h)
  · intro h
    rw [List.take_append, List.take_of_length_le (Nat.le_of_lt h)]
    refine List.mem_append_right _ ?_
    obtain ⟨k, hk⟩ := Nat.exists_eq_succ_of_ne_zero (Nat.sub_ne_zero_of_lt h)
    rw [hk, List.take_succ_cons]
    exact List.mem_cons_self

end Ranking

/-! ### Ranking by score -/

section Scores
variable {ι K : Type*}

/-- The higher score comes first, and the lower key among equal scores. -/
def Ranked [LE ι] [LT K] (a b : ι × K) : Prop := b.2 < a.2 ∨ (a.2 = b.2 ∧ a.1 ≤ b.1)

instance [LE ι] [DecidableLE ι] [LT K] [DecidableLT K] [DecidableEq K] : DecidableRel (Ranked (ι := ι) (K := K)) := fun _ _ =>
  inferInstanceAs (Decidable (_ ∨ _))

variable [LinearOrder ι] [LinearOrder K] {a b c : ι × K}

theorem ranked_refl (a : ι × K) : Ranked a a := .inr ⟨rfl, le_rfl⟩

theorem ranked_trans (hab : Ranked a b) (hbc : Ranked b c) : Ranked a c := by
  rcases hab with hab | ⟨hab, hid⟩
  · rcases hbc with hbc | ⟨hbc, -⟩
    · exact .inl (hbc.trans hab)
    · exact .inl (hbc ▸ hab)
  · rcases hbc with hbc | ⟨hbc, hid'⟩
    · exact .inl (hab ▸ hbc)
    · exact .inr ⟨hab.trans hbc, hid.trans hid'⟩

theorem ranked_total (a b : ι × K) : Ranked a b ∨ Ranked b a := by
  rcases lt_trichotomy a.2 b.2 with h | h | h
  · exact .inr (.inl h)
  · rcases le_total a.1 b.1 with hid | hid
    · exact .inl (.inr ⟨h, hid⟩)
    · exact .inr (.inr ⟨h.symm, hid⟩)
  · exact .inl (.inl h)

theorem ranked_antisymm (hab : Ranked a b) (hba : Ranked b a) : a = b := by
  rcases hab with hab | ⟨hab, hid⟩
  · rcases hba with hba | ⟨hba, -⟩
    · exact absurd hab hba.asymm
    · exact absurd hba hab.ne
  · rcases hba with hba | ⟨-, hid'⟩
    · exact absurd hab hba.ne
    · exact Prod.ext (le_antisymm hid hid') hab

/-- What does not come first comes strictly after. -/
theorem not_ranked : ¬Ranked a b ↔ a.2 < b.2 ∨ (a.2 = b.2 ∧ b.1 < a.1) := by
  rw [Ranked, not_or, not_lt, not_and, not_le]
  constructor
  · rintro ⟨hle, hid⟩
    rcases hle.lt_or_eq with hlt | heq
    · exact .inl hlt
    · exact .inr ⟨heq, hid heq⟩
  · rintro (hlt | ⟨heq, hid⟩)
    · exact ⟨hlt.le, fun heq => absurd heq hlt.ne⟩
    · exact ⟨heq.le, fun _ => hid⟩

instance : IsTrans (ι × K) Ranked := ⟨fun _ _ _ => ranked_trans⟩

instance : Std.Total (α := ι × K) Ranked := ⟨ranked_total⟩

/-- The `n` keys that rank first. -/
def topKeys (d : Dict ι K) (n : Nat) : List ι := ((d.sort fun a b => decide (Ranked a b)).keys).take n

variable {d d' : Dict ι K} {n m : Nat} {i j : ι} {x y : K}

theorem topKeys_perm (h : d.entries.Perm d'.entries) : topKeys d n = topKeys d' n := by
  rw [topKeys, topKeys, Dict.sort_eq_of_perm h fun _ _ _ _ hab hba => ranked_antisymm hab hba]

theorem topKeys_nodup (d : Dict ι K) (n : Nat) : (topKeys d n).Nodup :=
  (d.sort fun a b => decide (Ranked a b)).nodup.sublist (List.take_sublist _ _)

theorem mem_keys_of_mem_topKeys (h : i ∈ topKeys d n) : i ∈ d.keys := Dict.mem_keys_sort.mp (List.mem_of_mem_take h)

theorem length_topKeys (d : Dict ι K) (n : Nat) : (topKeys d n).length = min n d.keys.length := by
  rw [topKeys, List.length_take, Dict.keys, Dict.keys, List.length_map, List.length_map, Dict.entries_sort, List.length_mergeSort]

theorem topKeys_subset (h : n ≤ m) : topKeys d n ⊆ topKeys d m := by
  intro i hi
  exact (List.take_prefix_take_left h).subset hi

theorem topKeys_all (h : d.keys.length ≤ n) : i ∈ topKeys d n ↔ i ∈ d.keys := by
  have hlength : (d.sort fun a b => decide (Ranked a b)).keys.length ≤ n := by
    rw [Dict.keys, List.length_map, Dict.entries_sort, List.length_mergeSort]
    simpa [Dict.keys] using h
  rw [topKeys, List.take_of_length_le hlength, Dict.mem_keys_sort]

/-- What is among the first ranks before what is not. -/
theorem ranked_of_topKeys [DecidableEq ι] (hx : d.get? i = some x) (hy : d.get? j = some y) (hi : i ∈ topKeys d n)
    (hj : j ∉ topKeys d n) : Ranked (i, x) (j, y) := by
  have htrans : ∀ a b c : ι × K, decide (Ranked a b) = true → decide (Ranked b c) = true → decide (Ranked a c) = true := by
    intro a b c hab hbc
    exact decide_eq_true (ranked_trans (of_decide_eq_true hab) (of_decide_eq_true hbc))
  have htotal : ∀ a b : ι × K, (decide (Ranked a b) || decide (Ranked b a)) = true := by
    intro a b
    simpa using ranked_total a b
  have hsorted : (d.entries.mergeSort fun a b => decide (Ranked a b)).Pairwise Ranked :=
    (List.pairwise_mergeSort htrans htotal d.entries).imp fun hab => of_decide_eq_true hab
  generalize hl : (d.entries.mergeSort fun a b => decide (Ranked a b)) = l at hsorted
  have hkeys : topKeys d n = (l.take n).map Prod.fst := by
    rw [topKeys, Dict.keys, Dict.entries_sort, hl, List.map_take]
  have hmem : ∀ {k : ι} {v : K}, d.get? k = some v → (k, v) ∈ l := by
    intro k v hk
    rw [← hl, List.mem_mergeSort]
    exact Dict.get?_eq_some.mp hk
  have hnodup : (l.map Prod.fst).Nodup := by
    rw [← hl]
    exact ((List.mergeSort_perm _ _).map Prod.fst).nodup_iff.mpr d.nodup
  rw [hkeys] at hi hj
  have hfront : (i, x) ∈ l.take n := by
    obtain ⟨e, he, hei⟩ := List.mem_map.mp hi
    have hsame : e = (i, x) := List.inj_on_of_nodup_map hnodup (List.mem_of_mem_take he) (hmem hx) hei
    exact hsame ▸ he
  have hback : (j, y) ∈ l.drop n := by
    have hsplit := hmem hy
    rw [← List.take_append_drop n l, List.mem_append] at hsplit
    exact hsplit.resolve_left fun h => hj (List.mem_map_of_mem h)
  rw [← List.take_append_drop n l] at hsorted
  exact (List.pairwise_append.mp hsorted).2.2 _ hfront _ hback

end Scores
