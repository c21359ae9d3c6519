import AsymmetricCommittee.Lib.Dict
import Mathlib.Data.List.Induction
import Mathlib.Data.List.Sort
import Mathlib.Data.Prod.Lex

/-! Tables that keep every version of a row. Of the rows with one key the newest is in force; reading the newest and
    filtering commute only when no older version passes the filter in its place. -/

namespace Versions

section Newest
variable {ρ κ ω : Type*} [LinearOrder κ] [LinearOrder ω]

/-- The first row of each key, in the order of the list. -/
def firsts (key : ρ → κ) : List ρ → List ρ
  | [] => []
  | r :: rows => r :: (firsts key rows).filter fun r' => decide (key r' ≠ key r)

/-- By key, the newest version first. -/
def sortKey (key : ρ → κ) (version : ρ → ω) (r : ρ) : κ ×ₗ ωᵒᵈ := toLex (key r, OrderDual.toDual (version r))

/-- The newest row of each key, by key. -/
def newest (key : ρ → κ) (version : ρ → ω) (rows : List ρ) : List ρ :=
  firsts key (rows.insertionSort fun a b => sortKey key version a ≤ sortKey key version b)

/-- No row of the key is newer. -/
def InForce (key : ρ → κ) (version : ρ → ω) (rows : List ρ) (r : ρ) : Prop :=
  r ∈ rows ∧ ∀ r' ∈ rows, key r' = key r → version r' ≤ version r

/-- A version of a key is one row. -/
def Distinct (key : ρ → κ) (version : ρ → ω) (rows : List ρ) : Prop :=
  ∀ a ∈ rows, ∀ b ∈ rows, key a = key b → version a = version b → a = b

variable {key : ρ → κ} {version : ρ → ω} {rows rows' : List ρ} {p : ρ → Bool} {r : ρ}

theorem sortKey_le {a b : ρ} : sortKey key version a ≤ sortKey key version b ↔
    key a < key b ∨ (key a = key b ∧ version b ≤ version a) := by
  rw [Prod.Lex.le_iff]
  rfl

theorem firsts_sublist (key : ρ → κ) (rows : List ρ) : (firsts key rows).Sublist rows := by
  induction rows with
  | nil => exact List.Sublist.slnil
  | cons r rows ih => exact (List.filter_sublist.trans ih).cons_cons r

theorem firsts_nodup : (firsts key rows).Pairwise fun a b => key a ≠ key b := by
  induction rows with
  | nil => exact List.Pairwise.nil
  | cons r rows ih =>
    refine List.pairwise_cons.mpr ⟨fun r' hr' => ?_, ih.filter _⟩
    exact (of_decide_eq_true (List.mem_filter.mp hr').2).symm

theorem exists_first (hr : r ∈ rows) : ∃ r' ∈ firsts key rows, key r' = key r := by
  induction rows with
  | nil => cases hr
  | cons r₀ rows ih =>
    by_cases heq : key r = key r₀
    · exact ⟨r₀, List.mem_cons_self, heq.symm⟩
    · have hrest : r ∈ rows := by
        obtain rfl | hrest := List.mem_cons.mp hr
        · exact absurd rfl heq
        · exact hrest
      obtain ⟨r', hr', hkey⟩ := ih hrest
      refine ⟨r', List.mem_cons_of_mem _ (List.mem_filter.mpr ⟨hr', decide_eq_true ?_⟩), hkey⟩
      rw [hkey]
      exact heq

/-- In a list where equal keys have the newest first, the firsts are in force. -/
theorem inForce_of_mem_firsts (h : rows.Pairwise fun a b => key a = key b → version b ≤ version a)
    (hr : r ∈ firsts key rows) : InForce key version rows r := by
  induction rows with
  | nil => cases hr
  | cons r₀ rows ih =>
    obtain ⟨hhead, htail⟩ := List.pairwise_cons.mp h
    obtain rfl | hr := List.mem_cons.mp hr
    · refine ⟨List.mem_cons_self, fun r' hr' hkey => ?_⟩
      obtain rfl | hr' := List.mem_cons.mp hr'
      · exact le_rfl
      · exact hhead r' hr' hkey.symm
    · obtain ⟨hr, hne⟩ := List.mem_filter.mp hr
      obtain ⟨hmem, hnewest⟩ := ih htail hr
      refine ⟨List.mem_cons_of_mem _ hmem, fun r' hr' hkey => ?_⟩
      obtain rfl | hr' := List.mem_cons.mp hr'
      · exact absurd hkey.symm (of_decide_eq_true hne)
      · exact hnewest r' hr' hkey

omit [LinearOrder κ] in
theorem inForce_congr (h : ∀ r, r ∈ rows ↔ r ∈ rows') : InForce key version rows r ↔ InForce key version rows' r := by
  simp only [InForce, h]

omit [LinearOrder κ] in
theorem InForce.unique (hd : Distinct key version rows) {r' : ρ} (h : InForce key version rows r)
    (h' : InForce key version rows r') (hkey : key r = key r') : r = r' :=
  hd r h.1 r' h'.1 hkey (le_antisymm (h'.2 r h.1 hkey) (h.2 r' h'.1 hkey.symm))

/-! ### Reading the newest -/

theorem sorted_by_key (key : ρ → κ) (version : ρ → ω) (rows : List ρ) :
    (rows.insertionSort fun a b => sortKey key version a ≤ sortKey key version b).Pairwise
      fun a b => sortKey key version a ≤ sortKey key version b := by
  have : Std.Total fun a b => sortKey key version a ≤ sortKey key version b := ⟨fun _ _ => le_total _ _⟩
  have : IsTrans ρ fun a b => sortKey key version a ≤ sortKey key version b := ⟨fun _ _ _ => le_trans⟩
  exact List.pairwise_insertionSort _ _

theorem newest_increasing (key : ρ → κ) (version : ρ → ω) (rows : List ρ) :
    (newest key version rows).Pairwise fun a b => key a < key b := by
  have hle := (sorted_by_key key version rows).sublist (firsts_sublist key _)
  refine (hle.and firsts_nodup).imp ?_
  rintro a b ⟨hle, hne⟩
  obtain hlt | ⟨heq, -⟩ := sortKey_le.mp hle
  · exact hlt
  · exact absurd heq hne

theorem inForce_of_mem_newest (hr : r ∈ newest key version rows) : InForce key version rows r := by
  have hfirst : (rows.insertionSort fun a b => sortKey key version a ≤ sortKey key version b).Pairwise
      fun a b => key a = key b → version b ≤ version a := by
    refine (sorted_by_key key version rows).imp fun hle hkey => ?_
    obtain hlt | ⟨-, hle⟩ := sortKey_le.mp hle
    · exact absurd hkey hlt.ne
    · exact hle
  exact (inForce_congr fun r => List.mem_insertionSort _).mp (inForce_of_mem_firsts hfirst hr)

theorem exists_mem_newest (key : ρ → κ) (version : ρ → ω) (hr : r ∈ rows) : ∃ r' ∈ newest key version rows, key r' = key r :=
  exists_first ((List.mem_insertionSort _).mpr hr)

theorem mem_newest (hd : Distinct key version rows) : r ∈ newest key version rows ↔ InForce key version rows r := by
  refine ⟨inForce_of_mem_newest, fun hr => ?_⟩
  obtain ⟨r', hr', hkey⟩ := exists_mem_newest key version hr.1
  rw [hr.unique hd (inForce_of_mem_newest hr') hkey.symm]
  exact hr'

/-- A list in increasing order of its keys is determined by its elements. -/
theorem eq_of_increasing {l l' : List ρ} (hl : l.Pairwise fun a b => key a < key b)
    (hl' : l'.Pairwise fun a b => key a < key b) (hmem : ∀ r, r ∈ l ↔ r ∈ l') : l = l' := by
  have hnodup (l : List ρ) (hl : l.Pairwise fun a b => key a < key b) : l.Nodup :=
    hl.imp fun hlt heq => hlt.ne (congrArg key heq)
  have hperm : l.Perm l' := (List.perm_ext_iff_of_nodup (hnodup l hl) (hnodup l' hl')).mpr hmem
  refine hperm.eq_of_pairwise (fun a b _ _ hab hba => ?_) hl hl'
  exact absurd hab hba.not_gt

/-! ### Filters -/

omit [LinearOrder κ] [LinearOrder ω] in
theorem Distinct.filter (hd : Distinct key version rows) (p : ρ → Bool) : Distinct key version (rows.filter p) :=
  fun a ha b hb => hd a (List.mem_of_mem_filter ha) b (List.mem_of_mem_filter hb)

/-- Every key that has a row that passes has its newest row pass. -/
def NewestPass (key : ρ → κ) (version : ρ → ω) (p : ρ → Bool) (rows : List ρ) : Prop :=
  ∀ r ∈ rows, p r = true → ∀ r', InForce key version rows r' → key r' = key r → p r' = true

/-- Filtering first reads the same exactly when the newest rows pass wherever any row does. -/
theorem newest_filter_iff (hd : Distinct key version rows) :
    newest key version (rows.filter p) = (newest key version rows).filter p ↔ NewestPass key version p rows := by
  constructor
  · intro heq r hr hp r' hr' hkey
    obtain ⟨r'', hnew, hkey'⟩ := exists_mem_newest key version (List.mem_filter.mpr ⟨hr, hp⟩)
    rw [heq] at hnew
    obtain ⟨hnew, hpass⟩ := List.mem_filter.mp hnew
    rw [hr'.unique hd (inForce_of_mem_newest hnew) (hkey.trans hkey'.symm)]
    exact hpass
  · intro hpass
    refine eq_of_increasing (newest_increasing ..) ((newest_increasing ..).filter p) fun r => ?_
    rw [mem_newest (hd.filter p), List.mem_filter, mem_newest hd]
    constructor
    · rintro ⟨hr, hnewest⟩
      obtain ⟨hr, hp⟩ := List.mem_filter.mp hr
      obtain ⟨r', hr', hkey⟩ := exists_mem_newest key version hr
      have hforce := inForce_of_mem_newest hr'
      have hp' : p r' = true := hpass r hr hp r' hforce hkey
      have hle := hnewest r' (List.mem_filter.mpr ⟨hforce.1, hp'⟩) hkey
      have heq : r = r' := hd r hr r' hforce.1 hkey.symm (le_antisymm (hforce.2 r hr hkey.symm) hle)
      rw [heq]
      exact ⟨hforce, hp'⟩
    · rintro ⟨⟨hr, hnewest⟩, hp⟩
      exact ⟨List.mem_filter.mpr ⟨hr, hp⟩, fun r' hr' => hnewest r' (List.mem_of_mem_filter hr')⟩

omit [LinearOrder κ] in
/-- A filter on the key is one of those. -/
theorem newestPass_of_key (h : ∀ a b, key a = key b → p a = p b) : NewestPass key version p rows :=
  fun r _ hp r' _ hkey => (h r' r hkey).trans hp

end Newest

/-! ### A loop that keeps one row of each key -/

section Keep
variable {ρ κ ω : Type*} [DecidableEq κ] [BEq κ] [LawfulBEq κ] [LinearOrder ω] {key : ρ → κ} {version : ρ → ω}
  {p : ρ → Bool} {rows : List ρ} {r : ρ}

/-- Keep a row unless its key has one of the same version or a newer one. -/
def keep (key : ρ → κ) (version : ρ → ω) (kept : Dict κ ρ) (r : ρ) : Dict κ ρ :=
  match kept.get? (key r) with
  | none => kept.set (key r) r
  | some cur => if version cur < version r then kept.set (key r) r else kept

/-- The first of the newest rows of a key. -/
def Leads (key : ρ → κ) (version : ρ → ω) (rows : List ρ) (k : κ) (r : ρ) : Prop :=
  ∃ pre post, rows = pre ++ r :: post ∧ key r = k ∧ (∀ q ∈ pre, key q = k → version q < version r) ∧
    ∀ q ∈ post, key q = k → version q ≤ version r

variable {k : κ} {x : ρ}

omit [DecidableEq κ] [BEq κ] [LawfulBEq κ] in
theorem Leads.newest (h : Leads key version rows k r) : r ∈ rows ∧ key r = k ∧ ∀ q ∈ rows, key q = k → version q ≤ version r := by
  obtain ⟨pre, post, rfl, hkey, hpre, hpost⟩ := h
  refine ⟨List.mem_append_right _ List.mem_cons_self, hkey, fun q hq hk => ?_⟩
  rcases List.mem_append.mp hq with hq | hq
  · exact (hpre q hq hk).le
  · rcases List.mem_cons.mp hq with rfl | hq
    · exact le_rfl
    · exact hpost q hq hk

end Keep
end Versions
