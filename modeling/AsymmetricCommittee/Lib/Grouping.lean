import Mathlib.Data.List.SplitBy
import Mathlib.Data.List.Perm.Basic
import Mathlib.Data.List.Sort
import Mathlib.Order.Defs.LinearOrder

/-! Sorting by a key and grouping what shares one. The groups of a sorted list are the classes of equal
    key in increasing order, so they depend on the list only up to the order inside each class. -/

namespace Grouping
variable {α β κ : Type*} [LinearOrder κ]

/-- A stable sort by key. -/
def sortOn (key : α → κ) (l : List α) : List α := l.mergeSort fun a b => decide (key a ≤ key b)

/-- The runs of equal key. -/
def groupsOn (key : α → κ) (l : List α) : List (List α) := l.splitBy fun a b => decide (key a = key b)

/-- The groups of a list in increasing order of their keys. -/
structure Grouped (key : α → κ) (gs : List (List α)) : Prop where
  nonempty : [] ∉ gs
  const : ∀ g ∈ gs, ∀ a ∈ g, ∀ b ∈ g, key a = key b
  increasing : gs.Pairwise fun g h => ∀ a ∈ g, ∀ b ∈ h, key a < key b

variable {key : α → κ} {l l' : List α} {gs gs' : List (List α)}

theorem sortOn_perm (key : α → κ) (l : List α) : (sortOn key l).Perm l := List.mergeSort_perm l _

theorem sortOn_sorted (key : α → κ) (l : List α) : (sortOn key l).Pairwise fun a b => key a ≤ key b := by
  have h : (sortOn key l).Pairwise fun a b => decide (key a ≤ key b) = true := List.pairwise_mergeSort
    (fun a b c hab hbc => decide_eq_true ((of_decide_eq_true hab).trans (of_decide_eq_true hbc)))
    (fun a b => by simpa using le_total (key a) (key b)) l
  exact h.imp of_decide_eq_true

theorem sortOn_of_sorted (h : l.Pairwise fun a b => key a ≤ key b) : sortOn key l = l :=
  List.mergeSort_of_pairwise (h.imp fun hab => decide_eq_true hab)

/-- What a list has in front is what stands before the rest. -/
theorem filter_append_filter_not {p : α → Bool} (h : l.Pairwise fun a b => p b = true → p a = true) :
    l.filter p ++ l.filter (fun b => !p b) = l := by
  induction l with
  | nil => rfl
  | cons a l ih =>
    obtain ⟨ha, hl⟩ := List.pairwise_cons.mp h
    by_cases hp : p a = true
    · rw [List.filter_cons_of_pos hp, List.filter_cons_of_neg (by simp [hp]), List.cons_append, ih hl]
    · have hrest : ∀ b ∈ l, ¬p b = true := fun b hb hpb => hp (ha b hb hpb)
      rw [List.filter_cons_of_neg hp, List.filter_cons_of_pos (by simpa using hp), List.filter_eq_nil_iff.mpr hrest,
        List.filter_eq_self.mpr fun b hb => by simpa using hrest b hb, List.nil_append]

/-- The positions of what a list has in front. -/
theorem positions_filter {p : α → Bool} (h : l.Pairwise fun a b => p b = true → p a = true) :
    (l.zipIdx.filter fun x => p x.1).map Prod.snd = List.range (l.filter p).length := by
  have hfront : ∀ x ∈ (l.filter p).zipIdx, p x.1 = true := fun x hx =>
    (List.mem_filter.mp (List.fst_mem_of_mem_zipIdx hx)).2
  have hback : ∀ k, ∀ x ∈ (l.filter fun b => !p b).zipIdx k, ¬p x.1 = true := fun k x hx => by
    have hx := (List.mem_filter.mp (List.fst_mem_of_mem_zipIdx hx)).2
    simpa using hx
  calc (l.zipIdx.filter fun x => p x.1).map Prod.snd
      = (((l.filter p ++ l.filter fun b => !p b).zipIdx).filter fun x => p x.1).map Prod.snd := by
        rw [filter_append_filter_not h]
    _ = (l.filter p).zipIdx.map Prod.snd := by
        rw [List.zipIdx_append, List.filter_append, List.filter_eq_self.mpr hfront, List.filter_eq_nil_iff.mpr (hback _),
          List.append_nil]
    _ = List.range (l.filter p).length := by rw [List.zipIdx_map_snd, List.range_eq_range']

/-- What is below a key stands first in a sorted list. -/
theorem filter_append_of_sorted (h : l.Pairwise fun a b => key a ≤ key b) (k : κ) :
    l.filter (fun b => key b < k) ++ l.filter (fun b => k ≤ key b) = l := by
  have hsplit : l.Pairwise fun a b => decide (key b < k) = true → decide (key a < k) = true :=
    h.imp fun hab hb => decide_eq_true (hab.trans_lt (of_decide_eq_true hb))
  have hrest : (fun b => decide (k ≤ key b)) = fun b => !decide (key b < k) := by
    funext b
    rw [← decide_not, decide_eq_decide, not_lt]
  rw [hrest]
  exact filter_append_filter_not hsplit

/-- A first element goes before what has its key or a greater one. -/
theorem sortOn_cons (key : α → κ) (a : α) (l : List α) : sortOn key (a :: l) =
    (sortOn key l).filter (fun b => key b < key a) ++ a :: (sortOn key l).filter (fun b => key a ≤ key b) := by
  have htrans : ∀ a b c, decide (key a ≤ key b) = true → decide (key b ≤ key c) = true → decide (key a ≤ key c) = true :=
    fun a b c hab hbc => decide_eq_true ((of_decide_eq_true hab).trans (of_decide_eq_true hbc))
  have htotal : ∀ a b, (decide (key a ≤ key b) || decide (key b ≤ key a)) = true :=
    fun a b => by simpa using le_total (key a) (key b)
  obtain ⟨l₁, l₂, hcons, hl, hbefore⟩ := List.mergeSort_cons htrans htotal a l
  have hlow : ∀ b ∈ l₁, key b < key a := fun b hb => by simpa using hbefore b hb
  have hsorted := sortOn_sorted key (a :: l)
  rw [sortOn, hcons, List.pairwise_append, List.pairwise_cons] at hsorted
  have hhigh : ∀ b ∈ l₂, key a ≤ key b := hsorted.2.1.1
  rw [sortOn, hcons, sortOn, hl, List.filter_append, List.filter_append,
    List.filter_eq_self.mpr fun b hb => decide_eq_true (hlow b hb),
    List.filter_eq_nil_iff.mpr fun b hb => by simpa using hhigh b hb,
    List.filter_eq_nil_iff.mpr fun b hb => by simpa using hlow b hb,
    List.filter_eq_self.mpr fun b hb => decide_eq_true (hhigh b hb), List.append_nil, List.nil_append]

/-- A stable sort of a part is the part of the sort. -/
theorem filter_sortOn (key : α → κ) (p : α → Bool) (l : List α) : (sortOn key l).filter p = sortOn key (l.filter p) := by
  induction l with
  | nil => rw [List.filter_nil, sortOn, List.mergeSort_nil, List.filter_nil]
  | cons a l ih =>
    have hcomm : ∀ q : α → Bool, ((sortOn key l).filter q).filter p = (sortOn key (l.filter p)).filter q := by
      intro q
      rw [← ih, List.filter_filter, List.filter_filter]
      exact List.filter_congr fun b _ => Bool.and_comm _ _
    rw [sortOn_cons, List.filter_append, hcomm]
    by_cases ha : p a = true
    · rw [List.filter_cons_of_pos ha, List.filter_cons_of_pos ha, sortOn_cons, hcomm]
    · rw [List.filter_cons_of_neg ha, List.filter_cons_of_neg ha, hcomm]
      exact filter_append_of_sorted (sortOn_sorted key (l.filter p)) (key a)

/-- A sort by a key that tells the elements apart forgets their order. -/
theorem sortOn_eq_of_perm (hp : l.Perm l') (hinj : ∀ a ∈ l, ∀ b ∈ l, key a = key b → a = b) : sortOn key l = sortOn key l' := by
  refine List.Perm.eq_of_pairwise ?_ (sortOn_sorted key l) (sortOn_sorted key l')
    ((sortOn_perm key l).trans (hp.trans (sortOn_perm key l').symm))
  intro a b ha hb hab hba
  exact hinj a ((sortOn_perm key l).mem_iff.mp ha) b (hp.mem_iff.mpr ((sortOn_perm key l').mem_iff.mp hb)) (le_antisymm hab hba)

/-- Lists whose elements correspond and have the same keys are sorted alike. -/
theorem sortOn_forall₂ {key' : β → κ} {R : α → β → Prop} (hkey : ∀ a b, R a b → key' b = key a) {m : List β}
    (h : List.Forall₂ R l m) : List.Forall₂ R (sortOn key l) (sortOn key' m) := by
  have hfst : (l.zip m).map Prod.fst = l := List.map_fst_zip h.length_eq.le
  have hsnd : (l.zip m).map Prod.snd = m := List.map_snd_zip h.length_eq.ge
  have hpairs : ∀ p ∈ l.zip m, R p.1 p.2 := fun p hp => List.forall₂_zip h hp
  have hleft : sortOn key l = (sortOn (fun p : α × β => key p.1) (l.zip m)).map Prod.fst := by
    rw [sortOn, sortOn, List.map_mergeSort (s := fun a b => decide (key a ≤ key b)) (fun _ _ _ _ => rfl), hfst]
  have hright : sortOn key' m = (sortOn (fun p : α × β => key p.1) (l.zip m)).map Prod.snd := by
    rw [sortOn, sortOn, List.map_mergeSort (s := fun a b => decide (key' a ≤ key' b)) (fun p hp q hq => ?_), hsnd]
    rw [hkey p.1 p.2 (hpairs p hp), hkey q.1 q.2 (hpairs q hq)]
  rw [hleft, hright, List.forall₂_map_left_iff, List.forall₂_map_right_iff, List.forall₂_same]
  intro p hp
  exact hpairs p ((sortOn_perm _ _).mem_iff.mp hp)

variable (key) in
/-- A sort by a key that tells the elements apart forgets their order. -/
theorem insertionSort_eq_of_perm (hp : l.Perm l') (hinj : ∀ a ∈ l, ∀ b ∈ l, key a = key b → a = b) :
    (l.insertionSort fun a b => key a ≤ key b) = l'.insertionSort fun a b => key a ≤ key b := by
  let r : α → α → Prop := fun a b => key a ≤ key b
  have : Std.Total r := ⟨fun a b => le_total (key a) (key b)⟩
  have : IsTrans α r := ⟨fun _ _ _ hab hbc => le_trans hab hbc⟩
  refine List.Perm.eq_of_pairwise ?_ (List.pairwise_insertionSort r _) (List.pairwise_insertionSort r _)
    ((List.perm_insertionSort r _).trans (hp.trans (List.perm_insertionSort r _).symm))
  intro a b ha hb hab hba
  refine hinj a ((List.perm_insertionSort r _).mem_iff.mp ha) b ?_ (le_antisymm hab hba)
  exact hp.mem_iff.mpr ((List.perm_insertionSort r _).mem_iff.mp hb)

theorem flatten_groupsOn (key : α → κ) (l : List α) : (groupsOn key l).flatten = l :=
  List.flatten_splitBy _ l

/-! ### The groups of a sorted list -/

theorem isChain_const {g : List α} (h : g.IsChain fun a b => decide (key a = key b) = true) :
    ∀ a ∈ g, ∀ b ∈ g, key a = key b := by
  induction g with
  | nil => exact nofun
  | cons x g ih =>
    have hx : ∀ b ∈ g, key x = key b := by
      cases g with
      | nil => exact nofun
      | cons y g =>
        obtain ⟨hxy, hrest⟩ := List.isChain_cons_cons.mp h
        intro b hb
        exact (of_decide_eq_true hxy).trans (ih hrest y List.mem_cons_self b hb)
    have hg := ih h.tail
    intro a ha b hb
    rcases List.mem_cons.mp ha with hax | ha
    · rcases List.mem_cons.mp hb with hbx | hb
      · rw [hax, hbx]
      · rw [hax]
        exact hx b hb
    · rcases List.mem_cons.mp hb with hbx | hb
      · rw [hbx]
        exact (hx a ha).symm
      · exact hg a ha b hb

/-- Strictly increasing neighbours are strictly increasing throughout, as no group is empty. -/
theorem pairwise_of_isChain (hn : [] ∉ gs)
    (h : gs.IsChain fun g g' => ∀ a ∈ g, ∀ b ∈ g', key a < key b) :
    gs.Pairwise fun g g' => ∀ a ∈ g, ∀ b ∈ g', key a < key b := by
  induction gs with
  | nil => exact List.Pairwise.nil
  | cons g gs ih =>
    have hrest := ih (fun hm => hn (List.mem_cons_of_mem g hm)) h.tail
    refine List.pairwise_cons.mpr ⟨fun g' hg' a ha b hb => ?_, hrest⟩
    cases gs with
    | nil => cases hg'
    | cons m gs =>
      have hgm := (List.isChain_cons_cons.mp h).1
      rcases List.mem_cons.mp hg' with rfl | hg'
      · exact hgm a ha b hb
      · -- the group between has an element
        have hm : m ≠ [] := fun hm => hn (hm ▸ List.mem_cons_of_mem g List.mem_cons_self)
        obtain ⟨c, hc⟩ := List.exists_mem_of_ne_nil m hm
        exact (hgm a ha c hc).trans ((List.pairwise_cons.mp hrest).1 g' hg' c hc b hb)

theorem isChain_and {R S : α → α → Prop} (hR : l.Pairwise R) (hS : l.IsChain S) : l.IsChain fun a b => R a b ∧ S a b := by
  induction l with
  | nil => exact List.isChain_nil
  | cons a l ih =>
    obtain ⟨ha, hl⟩ := List.pairwise_cons.mp hR
    refine List.isChain_cons.mpr ⟨fun b hb => ⟨ha b (List.mem_of_mem_head? hb), ?_⟩, ih hl hS.tail⟩
    exact (List.isChain_cons.mp hS).1 b hb

theorem grouped_groupsOn (h : l.Pairwise fun a b => key a ≤ key b) : Grouped key (groupsOn key l) := by
  have hconst : ∀ g ∈ groupsOn key l, ∀ a ∈ g, ∀ b ∈ g, key a = key b := fun g hg =>
    isChain_const (List.isChain_of_mem_splitBy hg)
  have hle : (groupsOn key l).Pairwise fun g g' => ∀ a ∈ g, ∀ b ∈ g', key a ≤ key b := by
    rw [← flatten_groupsOn key l, List.pairwise_flatten] at h
    exact h.2
  refine ⟨List.nil_notMem_splitBy _ _, hconst, pairwise_of_isChain (List.nil_notMem_splitBy _ _) ?_⟩
  have hne := List.isChain_getLast_head_splitBy (fun a b => decide (key a = key b)) l
  refine (isChain_and hle hne).imp_of_mem_imp ?_
  rintro g g' hg hg' ⟨hle, hlast, hhead, hneq⟩ a ha b hb
  have hl := hconst g hg a ha _ (List.getLast_mem hlast)
  have hh := hconst g' hg' b hb _ (List.head_mem hhead)
  exact lt_of_le_of_ne (hle a ha b hb) fun heq => of_decide_eq_false hneq (hl.symm.trans (heq.trans hh))

theorem groupsOn_flatten (h : Grouped key gs) : groupsOn key gs.flatten = gs := by
  refine List.splitBy_flatten h.nonempty (fun g hg => ?_) ?_
  · have hpair : g.Pairwise fun a b => decide (key a = key b) = true :=
      List.pairwise_of_forall_mem_list fun a ha b hb => decide_eq_true (h.const g hg a ha b hb)
    exact hpair.isChain
  · refine h.increasing.isChain.imp_of_mem_imp ?_
    intro g g' hg hg' hlt
    have hg0 : g ≠ [] := fun hnil => h.nonempty (hnil ▸ hg)
    have hg0' : g' ≠ [] := fun hnil => h.nonempty (hnil ▸ hg')
    exact ⟨hg0, hg0', decide_eq_false (hlt _ (List.getLast_mem hg0) _ (List.head_mem hg0')).ne⟩

/-! ### Uniqueness -/

theorem Grouped.tail {g : List α} (h : Grouped key (g :: gs)) : Grouped key gs :=
  ⟨fun hm => h.nonempty (List.mem_cons_of_mem g hm), fun g' hg' => h.const g' (List.mem_cons_of_mem g hg'),
    (List.pairwise_cons.mp h.increasing).2⟩

/-- The first group is exactly what has the least key. -/
theorem Grouped.filter_head {g : List α} (h : Grouped key (g :: gs)) {k : κ} (hk : ∀ a ∈ g, key a = k) :
    ((g :: gs).flatten.filter fun a => key a = k) = g ∧ ((g :: gs).flatten.filter fun a => ¬key a = k) = gs.flatten := by
  have hg0 : g ≠ [] := fun hnil => h.nonempty (hnil ▸ List.mem_cons_self)
  obtain ⟨c, hc⟩ := List.exists_mem_of_ne_nil g hg0
  have hrest : ∀ b ∈ gs.flatten, key b ≠ k := fun b hb => by
    obtain ⟨g', hg', hbg⟩ := List.mem_flatten.mp hb
    have hlt := (List.pairwise_cons.mp h.increasing).1 g' hg' c hc b hbg
    rw [hk c hc] at hlt
    exact hlt.ne'
  rw [List.flatten_cons, List.filter_append, List.filter_append]
  constructor
  · rw [List.filter_eq_self.mpr fun a ha => decide_eq_true (hk a ha),
      List.filter_eq_nil_iff.mpr fun b hb => by simpa using hrest b hb, List.append_nil]
  · rw [List.filter_eq_nil_iff.mpr fun a ha => by simpa using hk a ha,
      List.filter_eq_self.mpr fun b hb => by simpa using hrest b hb, List.nil_append]

/-- The key of the first group is below every other. -/
theorem Grouped.head_le {g : List α} (h : Grouped key (g :: gs)) {a : α} (ha : a ∈ g) {b : α}
    (hb : b ∈ (g :: gs).flatten) : key a ≤ key b := by
  rw [List.flatten_cons, List.mem_append] at hb
  rcases hb with hb | hb
  · exact (h.const g List.mem_cons_self a ha b hb).le
  · obtain ⟨g', hg', hbg⟩ := List.mem_flatten.mp hb
    exact ((List.pairwise_cons.mp h.increasing).1 g' hg' a ha b hbg).le

/-- The groups up to a key, and those after it. -/
theorem Grouped.split (h : Grouped key gs) (c : κ) : ∃ before after, gs = before ++ after ∧ Grouped key before ∧
    (∀ g ∈ before, ∀ a ∈ g, key a ≤ c) ∧ ∀ g ∈ after, ∀ a ∈ g, c < key a := by
  induction gs with
  | nil => exact ⟨[], [], rfl, h, by simp, by simp⟩
  | cons g gs ih =>
    have hg0 : g ≠ [] := fun hnil => h.nonempty (hnil ▸ List.mem_cons_self)
    obtain ⟨a, ha⟩ := List.exists_mem_of_ne_nil g hg0
    rcases le_or_gt (key a) c with hle | hlt
    · obtain ⟨before, after, rfl, hgrouped, hbefore, hafter⟩ := ih h.tail
      refine ⟨g :: before, after, rfl, ⟨?_, ?_, ?_⟩, ?_, hafter⟩
      · simpa [eq_comm] using ⟨hg0, hgrouped.nonempty⟩
      · exact fun g' hg' => h.const g' (List.mem_append_left after hg' : g' ∈ (g :: before) ++ after)
      · exact h.increasing.sublist (List.sublist_append_left (g :: before) after)
      · refine List.forall_mem_cons.mpr ⟨fun b hb => ?_, hbefore⟩
        exact (h.const g List.mem_cons_self b hb a ha).le.trans hle
    · refine ⟨[], g :: gs, rfl, ⟨List.not_mem_nil, by simp, .nil⟩, by simp, fun g' hg' b hb => ?_⟩
      exact hlt.trans_le (h.head_le ha (List.mem_flatten.mpr ⟨g', hg', hb⟩))

/-- Two groupings of the same elements have the same groups, each up to order. -/
theorem Grouped.unique (h : Grouped key gs) (h' : Grouped key gs') (hp : gs.flatten.Perm gs'.flatten) :
    List.Forall₂ List.Perm gs gs' := by
  induction gs generalizing gs' with
  | nil =>
    cases gs' with
    | nil => exact .nil
    | cons g' gs' =>
      have hnil : g' = [] := by
        rw [List.flatten_nil, List.nil_perm, List.flatten_cons, List.append_eq_nil_iff] at hp
        exact hp.1
      exact absurd (hnil ▸ List.mem_cons_self) h'.nonempty
  | cons g gs ih =>
    have hg0 : g ≠ [] := fun hnil => h.nonempty (hnil ▸ List.mem_cons_self)
    obtain ⟨a, ha⟩ := List.exists_mem_of_ne_nil g hg0
    cases gs' with
    | nil =>
      rw [List.flatten_nil, List.perm_nil, List.flatten_cons, List.append_eq_nil_iff] at hp
      exact absurd hp.1 hg0
    | cons g' gs' =>
      have hg0' : g' ≠ [] := fun hnil => h'.nonempty (hnil ▸ List.mem_cons_self)
      obtain ⟨a', ha'⟩ := List.exists_mem_of_ne_nil g' hg0'
      have hkey : key a' = key a := by
        refine le_antisymm (h'.head_le ha' (hp.mem_iff.mp ?_)) (h.head_le ha (hp.mem_iff.mpr ?_))
        · rw [List.flatten_cons]
          exact List.mem_append_left _ ha
        · rw [List.flatten_cons]
          exact List.mem_append_left _ ha'
      obtain ⟨hhead, htail⟩ := h.filter_head fun b hb => h.const g List.mem_cons_self b hb a ha
      obtain ⟨hhead', htail'⟩ := h'.filter_head fun b hb =>
        (h'.const g' List.mem_cons_self b hb a' ha').trans hkey
      refine .cons ?_ (ih h.tail h'.tail ?_)
      · rw [← hhead, ← hhead']
        exact hp.filter _
      · rw [← htail, ← htail']
        exact hp.filter _

/-- The groups of a sorted arrangement are those of the stable sort, each up to order. -/
theorem groups_of_perm (hl : l.Pairwise fun a b => key a ≤ key b) (hp : l.Perm l') :
    List.Forall₂ List.Perm (groupsOn key l) (groupsOn key (sortOn key l')) := by
  refine (grouped_groupsOn hl).unique (grouped_groupsOn (sortOn_sorted key l')) ?_
  rw [flatten_groupsOn, flatten_groupsOn]
  exact hp.trans (sortOn_perm key l').symm

/-- Grouping what is tagged with elements is grouping the elements. -/
theorem Grouped.of_map {f : β → α} {ts : List (List β)} (h : Grouped key (ts.map (List.map f))) :
    Grouped (fun b => key (f b)) ts := by
  refine ⟨fun hm => h.nonempty (List.mem_map.mpr ⟨[], hm, rfl⟩), fun t ht a ha b hb => ?_, ?_⟩
  · exact h.const _ (List.mem_map_of_mem ht) _ (List.mem_map_of_mem ha) _ (List.mem_map_of_mem hb)
  · refine (List.pairwise_map.mp h.increasing).imp fun hlt a ha b hb => ?_
    exact hlt _ (List.mem_map_of_mem ha) _ (List.mem_map_of_mem hb)

theorem Grouped.map {f : β → α} {ts : List (List β)} (h : Grouped (fun b => key (f b)) ts) :
    Grouped key (ts.map (List.map f)) := by
  refine ⟨fun hm => ?_, fun g hg a ha b hb => ?_, ?_⟩
  · obtain ⟨t, ht, hnil⟩ := List.mem_map.mp hm
    rw [List.map_eq_nil_iff] at hnil
    exact h.nonempty (hnil ▸ ht)
  · obtain ⟨t, ht, rfl⟩ := List.mem_map.mp hg
    obtain ⟨x, hx, rfl⟩ := List.mem_map.mp ha
    obtain ⟨y, hy, rfl⟩ := List.mem_map.mp hb
    exact h.const t ht x hx y hy
  · refine List.pairwise_map.mpr (h.increasing.imp fun hlt a ha b hb => ?_)
    obtain ⟨x, hx, rfl⟩ := List.mem_map.mp ha
    obtain ⟨y, hy, rfl⟩ := List.mem_map.mp hb
    exact hlt x hx y hy

end Grouping
