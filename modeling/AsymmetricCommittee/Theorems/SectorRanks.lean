import Mathlib.Data.Rat.Floor
import AsymmetricCommittee.Contracts.Samples
import AsymmetricCommittee.Features.Builder
import AsymmetricCommittee.Lib.Ranking

/-! The two sector percentiles of a feature. The builder counts the names that come before one by value and then by security;
    the renderer counts the smaller values and half of the equal ones. They agree where no two values of a sector are equal. -/

namespace AsymmetricCommittee
namespace Builder
open Renderer (minGroup percentileRanks sectorPercentiles)

/-! ### Assignments -/

/-- A key that is assigned holds one of the values assigned to it. -/
theorem exists_get?_foldl_set {κ ν α : Type*} [DecidableEq κ] [BEq κ] [LawfulBEq κ] {key : α → κ} {value : α → ν} {l : List α} {d : Dict κ ν} {k : κ}
    (h : ∃ x ∈ l, key x = k) :
    ∃ x ∈ l, key x = k ∧ (l.foldl (fun d x => d.set (key x) (value x)) d).get? k = some (value x) := by
  induction l generalizing d with
  | nil =>
    obtain ⟨x, hx, -⟩ := h
    cases hx
  | cons x l ih =>
    by_cases hrest : ∃ y ∈ l, key y = k
    · obtain ⟨y, hy, hkey, hget⟩ := ih (d := d.set (key x) (value x)) hrest
      exact ⟨y, List.mem_cons_of_mem x hy, hkey, hget⟩
    · obtain ⟨y, hy, hkey⟩ := h
      rcases List.mem_cons.mp hy with rfl | hy
      · refine ⟨y, List.mem_cons_self, hkey, ?_⟩
        have hsome : ((l.foldl (fun d x => d.set (key x) (value x)) (d.set (key y) (value y))).get? k).isSome :=
          Dict.isSome_get?_foldl_set (.inr (by rw [Dict.get?_set, if_pos hkey.symm]; rfl))
        obtain ⟨v, hv⟩ := Option.isSome_iff_exists.mp hsome
        rcases Dict.of_get?_foldl_set hv with ⟨z, hz, hkey', -⟩ | hset
        · exact absurd ⟨z, hz, hkey'⟩ hrest
        · rw [Dict.get?_set, if_pos hkey.symm] at hset
          rw [List.foldl_cons, hv, hset]
      · exact absurd ⟨y, hy, hkey⟩ hrest

/-- A key whose assignments agree. -/
theorem get?_foldl_set {κ ν α : Type*} [DecidableEq κ] [BEq κ] [LawfulBEq κ] {key : α → κ} {value : α → ν} {l : List α} {d : Dict κ ν} {k : κ} {v : ν}
    (h : ∃ x ∈ l, key x = k) (hsame : ∀ x ∈ l, key x = k → value x = v) :
    (l.foldl (fun d x => d.set (key x) (value x)) d).get? k = some v := by
  have hassigned : ∃ x ∈ l, key x = k ∧ (l.foldl (fun d x => d.set (key x) (value x)) d).get? k = some (value x) :=
    exists_get?_foldl_set h
  obtain ⟨x, hx, hkey, hget⟩ := hassigned
  rw [hget, hsame x hx hkey]

theorem get?_foldl_set_of_not {κ ν α : Type*} [DecidableEq κ] [BEq κ] [LawfulBEq κ] {key : α → κ} {value : α → ν} {l : List α} {d : Dict κ ν} {k : κ}
    (h : ∀ x ∈ l, key x ≠ k) : (l.foldl (fun d x => d.set (key x) (value x)) d).get? k = d.get? k := by
  induction l generalizing d with
  | nil => rfl
  | cons x l ih =>
    rw [List.foldl_cons, ih fun y hy => h y (List.mem_cons_of_mem x hy), Dict.get?_set,
      if_neg fun hk => h x List.mem_cons_self hk.symm]

theorem get?_map {κ ν ν' : Type*} [BEq κ] [LawfulBEq κ] (d : Dict κ ν) (f : κ → ν → ν') (k : κ) :
    (d.map f).get? k = (d.get? k).map (f k) := by
  refine Option.ext fun x => ?_
  rw [Dict.get?_eq_some, Dict.entries_map, List.mem_map, Option.map_eq_some_iff]
  constructor
  · intro h
    obtain ⟨kv, hkv, heq⟩ := h
    cases heq
    exact ⟨kv.2, Dict.get?_eq_some.mpr hkv, rfl⟩
  · intro h
    obtain ⟨v, hv, rfl⟩ := h
    exact ⟨(k, v), Dict.get?_eq_some.mp hv, rfl⟩

/-! ### Cohorts -/

section Cohorts
variable {K : Type} [Field K] {fl : PyFloat K} {values : Dict SecurityId (Dict String (FeatureValue K))}
  {sectors : Dict SecurityId String} {name : String} {names : List String}

variable (fl values name) in
/-- The column of a feature. -/
def column : Dict SecurityId (Option K) := values.map fun _ row => finiteValue fl row name

variable (sectors) in
def sectorOf (sid : SecurityId) : String := (sectors.get? sid).getD ""

variable (fl values sectors name) in
/-- The names of a sector that have a value. -/
def cohort (sector : String) : List (SecurityId × K) :=
  values.entries.filterMap fun kv =>
    if sectorOf sectors kv.1 = sector then (finiteValue fl kv.2 name).map fun v => (kv.1, v) else none

theorem get?_column {sid : SecurityId} : (column fl values name).get? sid = (values.get? sid).map (finiteValue fl · name) :=
  get?_map values _ sid

theorem mem_cohort {sector : String} {item : SecurityId × K} : item ∈ cohort fl values sectors name sector ↔
    sectorOf sectors item.1 = sector ∧ (column fl values name).get? item.1 = some (some item.2) := by
  rw [get?_column, cohort, List.mem_filterMap]
  constructor
  · intro h
    obtain ⟨kv, hkv, heq⟩ := h
    split at heq
    · next hsector =>
      obtain ⟨v, hv, rfl⟩ := Option.map_eq_some_iff.mp heq
      refine ⟨hsector, ?_⟩
      rw [Dict.get?_eq_some.mpr hkv, Option.map_some, hv]
    · cases heq
  · intro h
    obtain ⟨hsector, hvalue⟩ := h
    obtain ⟨row, hrow, hv⟩ := Option.map_eq_some_iff.mp hvalue
    exact ⟨(item.1, row), Dict.get?_eq_some.mp hrow, by rw [if_pos hsector, hv]; rfl⟩

/-- A cohort has a name once. -/
theorem cohort_nodup (sector : String) : ((cohort fl values sectors name sector).map Prod.fst).Nodup := by
  have hsub : ((cohort fl values sectors name sector).map Prod.fst).Sublist values.keys := by
    unfold cohort Dict.keys
    induction values.entries with
    | nil => exact List.Sublist.slnil
    | cons kv l ih =>
      rw [List.filterMap_cons]
      split
      · exact ih.cons kv.1
      · next item hitem =>
        split at hitem
        · obtain ⟨v, -, rfl⟩ := Option.map_eq_some_iff.mp hitem
          exact ih.cons_cons kv.1
        · cases hitem
  exact values.nodup.sublist hsub

/-! ### The builder -/

variable (fl sectors name) in
/-- Adding each value to the group of its sector makes the cohorts. -/
theorem foldlM_groups {step : Dict String (List (SecurityId × K)) → SecurityId × Dict String (FeatureValue K) →
      Option (Dict String (List (SecurityId × K)))}
    (hnone : ∀ groups kv, finiteValue fl kv.2 name = none → step groups kv = some groups)
    (hsome : ∀ groups kv v, finiteValue fl kv.2 name = some v → step groups kv = (sectors.get? kv.1).map fun sector =>
      groups.set sector ((groups.get? sector).getD [] ++ [(kv.1, v)]))
    (l : List (SecurityId × Dict String (FeatureValue K))) (start groups : Dict String (List (SecurityId × K)))
    (h : l.foldlM step start = some groups) :
    (∀ sector, (groups.get? sector).getD [] = (start.get? sector).getD [] ++ l.filterMap fun kv =>
      if sectorOf sectors kv.1 = sector then (finiteValue fl kv.2 name).map fun v => (kv.1, v) else none) ∧
    ∀ kv ∈ l, finiteValue fl kv.2 name ≠ none → (sectors.get? kv.1).isSome := by
  induction l generalizing start with
  | nil =>
    cases h
    simp
  | cons kv l ih =>
    rw [List.foldlM_cons] at h
    cases hvalue : finiteValue fl kv.2 name with
    | none =>
      rw [hnone start kv hvalue] at h
      obtain ⟨hgroups, hall⟩ := ih start h
      refine ⟨fun sector => ?_, ?_⟩
      · rw [hgroups, List.filterMap_cons, hvalue]
        simp
      · exact List.forall_mem_cons.mpr ⟨fun hne => absurd hvalue hne, hall⟩
    | some v =>
      rw [hsome start kv v hvalue] at h
      obtain ⟨next, hnext, h⟩ := Option.bind_eq_some_iff.mp h
      obtain ⟨own, hown, rfl⟩ := Option.map_eq_some_iff.mp hnext
      obtain ⟨hgroups, hall⟩ := ih _ h
      refine ⟨fun sector => ?_, List.forall_mem_cons.mpr ⟨fun _ => by rw [hown]; rfl, hall⟩⟩
      have hsector : sectorOf sectors kv.1 = own := by rw [sectorOf, hown]; rfl
      rw [hgroups, Dict.get?_set, List.filterMap_cons, hvalue, hsector]
      by_cases hsame : sector = own
      · simp [hsame]
      · simp [hsame, Ne.symm hsame]

/-- The groups of the builder are the cohorts. -/
theorem bySector_eq {groups : Dict String (List (SecurityId × K))} (h : bySector fl values sectors name = some groups) :
    (∀ sector, (groups.get? sector).getD [] = cohort fl values sectors name sector) ∧
      ∀ kv ∈ values.entries, finiteValue fl kv.2 name ≠ none → (sectors.get? kv.1).isSome := by
  unfold bySector cohort at *
  obtain ⟨hgroups, hall⟩ := foldlM_groups fl sectors name (fun groups kv hvalue => by simp only [hvalue])
    (fun groups kv v hvalue => by simp only [hvalue]) values.entries Dict.empty groups h
  refine ⟨fun sector => ?_, hall⟩
  rw [hgroups, Dict.get?_empty]
  rfl

variable [LinearOrder K]

/-- How many items come before one, by value and then by security. -/
def before (group : List (SecurityId × K)) (item : SecurityId × K) : Nat := group.countP fun y => rankKey y < rankKey item

omit [Field K] in
theorem rankKey_lt {a b : SecurityId × K} : rankKey a < rankKey b ↔ a.2 < b.2 ∨ (a.2 = b.2 ∧ a.1 < b.1) :=
  Prod.Lex.lt_iff ..

omit [Field K] in
/-- In a sorted list the position of an item is how many come before it. -/
theorem position_eq {group ordered : List (SecurityId × K)} (hperm : ordered.Perm group) (hn : ordered.Nodup)
    (hsorted : ordered.Pairwise fun a b => rankKey a ≤ rankKey b) {item : SecurityId × K} {i : Nat}
    (hi : ordered[i]? = some item) : before group item = i := by
  obtain ⟨front, back, rfl, rfl⟩ : ∃ front back, ordered = front ++ item :: back ∧ front.length = i := by
    obtain ⟨hlt, hget⟩ := List.getElem?_eq_some_iff.mp hi
    refine ⟨ordered.take i, ordered.drop (i + 1), ?_, by rw [List.length_take, Nat.min_eq_left hlt.le]⟩
    rw [← hget, List.cons_getElem_drop_succ, List.take_append_drop]
  have hanti : ∀ y ∈ front, rankKey item ≤ rankKey y → rankKey y ≤ rankKey item → item = y := fun y _ hle hge => by
    have hpair : (item.2, item.1) = (y.2, y.1) := toLex.injective (le_antisymm hle hge)
    exact Prod.ext (Prod.ext_iff.mp hpair).2 (Prod.ext_iff.mp hpair).1
  have hfront : item ∉ front := fun hmem => (List.nodup_append.mp hn).2.2 item hmem item List.mem_cons_self rfl
  rw [← countBefore_append (r := fun a b => rankKey a ≤ rankKey b) hsorted le_rfl hanti hfront, countBefore_perm hperm]
  unfold before countBefore
  simp only [not_le]

omit [Field K] in
theorem getElem?_ordered {group : List (SecurityId × K)} (hnodup : group.Nodup) {item : SecurityId × K} {i : Nat} :
    (group.insertionSort fun a b => rankKey a ≤ rankKey b)[i]? = some item ↔ item ∈ group ∧ i = before group item := by
  have hperm : (group.insertionSort fun a b => rankKey a ≤ rankKey b).Perm group := List.perm_insertionSort _ _
  have hposition {j : Nat} (hj : (group.insertionSort fun a b => rankKey a ≤ rankKey b)[j]? = some item) :
      before group item = j :=
    position_eq hperm (hperm.nodup_iff.mpr hnodup) (List.pairwise_insertionSort _ _) hj
  constructor
  · intro hi
    exact ⟨hperm.mem_iff.mp (List.mem_of_getElem? hi), (hposition hi).symm⟩
  · intro h
    obtain ⟨hmem, rfl⟩ := h
    obtain ⟨j, hj⟩ := List.getElem?_of_mem (hperm.mem_iff.mpr hmem)
    rw [hposition hj, hj]

theorem mem_ranks {group : List (SecurityId × K)} (hnodup : group.Nodup) {sid : SecurityId} {p : K} : (sid, p) ∈ ranks group ↔
    ∃ v, (sid, v) ∈ group ∧ p = (before group (sid, v) : K) / max (group.length - 1 : Nat) 1 := by
  unfold ranks
  dsimp only
  rw [List.length_insertionSort, List.mem_map]
  constructor
  · intro h
    obtain ⟨⟨item, i⟩, hitem, heq⟩ := h
    obtain ⟨hmem, rfl⟩ := (getElem?_ordered hnodup).mp (List.mk_mem_zipIdx_iff_getElem?.mp hitem)
    cases heq
    exact ⟨item.2, hmem, by push_cast; rfl⟩
  · intro h
    obtain ⟨v, hmem, rfl⟩ := h
    refine ⟨((sid, v), before group (sid, v)), ?_, by push_cast; rfl⟩
    exact List.mk_mem_zipIdx_iff_getElem?.mpr ((getElem?_ordered hnodup).mpr ⟨hmem, rfl⟩)

/-- The percentiles of all groups. -/
def percentilesOf (groups : Dict String (List (SecurityId × K))) : Dict SecurityId K :=
  groups.values.foldl (fun d group => (ranks group).foldl (fun d item => d.set item.1 item.2) d) Dict.empty

variable (fl values sectors name) in
/-- A name's position in its cohort. -/
def position (sid : SecurityId) (v : K) : K :=
  (before (cohort fl values sectors name (sectorOf sectors sid)) (sid, v) : K) /
    max ((cohort fl values sectors name (sectorOf sectors sid)).length - 1 : Nat) 1

theorem get?_percentilesOf {groups : Dict String (List (SecurityId × K))} (h : bySector fl values sectors name = some groups)
    {sid : SecurityId} {v : K} (hv : (column fl values name).get? sid = some (some v)) :
    (percentilesOf groups).get? sid = some (position fl values sectors name sid v) := by
  obtain ⟨hgroups, -⟩ := bySector_eq h
  have hmem : (sid, v) ∈ cohort fl values sectors name (sectorOf sectors sid) := mem_cohort.mpr ⟨rfl, hv⟩
  have hnodup (sector : String) : (cohort fl values sectors name sector).Nodup := List.Nodup.of_map _ (cohort_nodup sector)
  unfold percentilesOf
  rw [← List.foldl_flatMap]
  refine get?_foldl_set ?_ ?_
  · have hget : groups.get? (sectorOf sectors sid) = some (cohort fl values sectors name (sectorOf sectors sid)) := by
      have hown := hgroups (sectorOf sectors sid)
      cases hget : groups.get? (sectorOf sectors sid) with
      | none =>
        rw [hget] at hown
        rw [← hown] at hmem
        cases hmem
      | some group =>
        rw [hget] at hown
        exact congrArg some hown
    have hrank : (sid, position fl values sectors name sid v) ∈ ranks (cohort fl values sectors name (sectorOf sectors sid)) :=
      (mem_ranks (hnodup _)).mpr ⟨v, hmem, rfl⟩
    exact ⟨(sid, position fl values sectors name sid v),
      List.mem_flatMap.mpr ⟨_, Dict.mem_values.mpr ⟨_, hget⟩, hrank⟩, rfl⟩
  · intro item hitem hsid
    obtain ⟨sid', p⟩ := item
    obtain rfl : sid' = sid := hsid
    obtain ⟨group, hgroup, hrank⟩ := List.mem_flatMap.mp hitem
    obtain ⟨sector, hget⟩ := Dict.mem_values.mp hgroup
    have hown := hgroups sector
    rw [hget] at hown
    obtain rfl : group = cohort fl values sectors name sector := hown
    obtain ⟨v', hv', rfl⟩ := (mem_ranks (hnodup _)).mp hrank
    obtain ⟨rfl, hcol⟩ := mem_cohort.mp hv'
    obtain rfl : v = v' := Option.some.inj (Option.some.inj (hv.symm.trans hcol))
    rfl

theorem percentileName_inj {a b : String} : percentileName a = percentileName b ↔ a = b := by
  rw [← String.toList_inj, ← String.toList_inj]
  simp [percentileName]

variable (sectors) in
/-- The percentile that a row has for a feature. -/
def stored (out : Dict SecurityId (Dict String (FeatureValue K))) (name : String) (sid : SecurityId) : Option K :=
  (out.get? sid).bind fun row =>
    match row.get? (percentileName name) with
    | some (.number p) => some p
    | _ => none

/-- A later column keeps the cells of another feature and writes those of the same one again. -/
theorem cell_addPercentiles {groups : Dict String (List (SecurityId × K))} (hgroups : bySector fl values sectors name = some groups)
    {sid : SecurityId} {start out : Dict SecurityId (Dict String (FeatureValue K))}
    (h : names.foldlM (addPercentile fl values sectors) start = some out) (hsid : (start.get? sid).isSome)
    (hcell : name ∈ names ∨ ∀ row, start.get? sid = some row →
      row.get? (percentileName name) = some (((percentilesOf groups).get? sid).elim .other .number)) :
    ∃ row, out.get? sid = some row ∧
      row.get? (percentileName name) = some (((percentilesOf groups).get? sid).elim .other .number) := by
  induction names generalizing start with
  | nil =>
    cases h
    obtain ⟨row, hrow⟩ := Option.isSome_iff_exists.mp hsid
    rcases hcell with hname | hcell
    · cases hname
    · exact ⟨row, hrow, hcell row hrow⟩
  | cons n names ih =>
    rw [List.foldlM_cons] at h
    obtain ⟨next, hnext, hrest⟩ := Option.bind_eq_some_iff.mp h
    obtain ⟨groups', hgroups', rfl⟩ := Option.map_eq_some_iff.mp hnext
    refine ih hrest ?_ ?_
    · rw [get?_map, Option.isSome_map]
      exact hsid
    · by_cases hn : name ∈ names
      · exact .inl hn
      · refine .inr fun row hrow => ?_
        rw [get?_map] at hrow
        obtain ⟨row₀, hrow₀, rfl⟩ := Option.map_eq_some_iff.mp hrow
        rw [Dict.get?_set]
        by_cases hsame : name = n
        · subst hsame
          obtain rfl : groups = groups' := Option.some.inj (hgroups.symm.trans hgroups')
          rw [if_pos rfl]
          rfl
        · rw [if_neg (mt percentileName_inj.mp hsame)]
          rcases hcell with hname | hcell
          · exact absurd ((List.mem_cons.mp hname).resolve_left hsame) hn
          · exact hcell row₀ hrow₀

theorem bySector_of_addPercentiles {start out : Dict SecurityId (Dict String (FeatureValue K))}
    (h : names.foldlM (addPercentile fl values sectors) start = some out) (hname : name ∈ names) :
    ∃ groups, bySector fl values sectors name = some groups := by
  induction names generalizing start with
  | nil => cases hname
  | cons n names ih =>
    rw [List.foldlM_cons] at h
    obtain ⟨next, hnext, hrest⟩ := Option.bind_eq_some_iff.mp h
    rcases List.mem_cons.mp hname with rfl | hname
    · obtain ⟨groups, hgroups, -⟩ := Option.map_eq_some_iff.mp hnext
      exact ⟨groups, hgroups⟩
    · exact ih hrest hname

/-- What the builder stores for a name with a value. -/
theorem stored_eq {out : Dict SecurityId (Dict String (FeatureValue K))}
    (h : addSectorPercentiles fl values sectors names = some out) (hname : name ∈ names) {sid : SecurityId} {v : K}
    (hv : (column fl values name).get? sid = some (some v)) :
    stored out name sid = some (position fl values sectors name sid v) := by
  obtain ⟨groups, hgroups⟩ := bySector_of_addPercentiles h hname
  have hsid : (values.get? sid).isSome := by
    rw [get?_column] at hv
    obtain ⟨row, hrow, -⟩ := Option.map_eq_some_iff.mp hv
    rw [hrow]
    rfl
  obtain ⟨row, hrow, hcell⟩ := cell_addPercentiles hgroups h hsid (.inl hname)
  rw [get?_percentilesOf hgroups hv] at hcell
  rw [stored, hrow, Option.bind_some, hcell]
  rfl

/-! ### The renderer -/

variable (fl values sectors name) in
/-- The percentiles of the renderer. -/
def rendered (sid : SecurityId) : Option K :=
  ((sectorPercentiles fl (column fl values name) (sectorOf sectors)).get? sid).join

omit [Field K] [LinearOrder K] in
/-- The groups of the renderer: the part of the column of each sector. -/
theorem get?_bySector {κ : Type} [DecidableEq κ] (column : Dict κ (Option K)) (sector : κ → String) (own : String) :
    (((Renderer.bySector column sector).get? own).map (·.entries)).getD [] =
      column.entries.filter fun kv => sector kv.1 = own := by
  unfold Renderer.bySector
  have hgeneral : ∀ (l : List (κ × Option K)) (start : Dict String (Dict κ (Option K))), (l.map Prod.fst).Nodup →
      (∀ own group, start.get? own = some group → ∀ k ∈ group.keys, k ∉ l.map Prod.fst) →
      ∀ own, (((l.foldl (fun groups kv => groups.set (sector kv.1)
          (((groups.get? (sector kv.1)).getD Dict.empty).set kv.1 kv.2)) start).get? own).map (·.entries)).getD [] =
        ((start.get? own).map (·.entries)).getD [] ++ l.filter fun kv => sector kv.1 = own := by
    intro l
    induction l with
    | nil => simp
    | cons kv l ih =>
      intro start hnodup hfresh own
      obtain ⟨hkv, hnodup⟩ := List.nodup_cons.mp hnodup
      have hnew : kv.1 ∉ ((start.get? (sector kv.1)).getD Dict.empty).keys := by
        cases hget : start.get? (sector kv.1) with
        | none => exact List.not_mem_nil
        | some group => exact fun hmem => hfresh _ group hget kv.1 hmem List.mem_cons_self
      have hentries : (((start.get? (sector kv.1)).getD Dict.empty).set kv.1 kv.2).entries =
          ((start.get? (sector kv.1)).getD Dict.empty).entries ++ [kv] := if_neg hnew
      rw [List.foldl_cons, ih _ hnodup]
      · rw [Dict.get?_set, List.filter_cons]
        by_cases hown : own = sector kv.1
        · rw [if_pos hown, if_pos (by simpa using hown.symm), Option.map_some, Option.getD_some, hentries, hown,
            List.append_assoc]
          cases start.get? (sector kv.1) <;> rfl
        · rw [if_neg hown, if_neg (by simpa using fun h => hown h.symm)]
      · intro own' group hget k hk hmem
        rw [Dict.get?_set] at hget
        split at hget
        · obtain rfl := Option.some.inj hget
          rw [Dict.keys, hentries, List.map_append, List.mem_append] at hk
          rcases hk with hk | hk
          · cases hget' : start.get? (sector kv.1) with
            | none =>
              rw [hget'] at hk
              cases hk
            | some group' =>
              rw [hget'] at hk
              exact hfresh _ group' hget' k hk (List.mem_cons_of_mem _ hmem)
          · obtain rfl : k = kv.1 := by simpa using hk
            exact hkv hmem
        · exact hfresh own' group hget k hk (List.mem_cons_of_mem _ hmem)
  rw [hgeneral column.entries Dict.empty column.nodup (fun own group h => by rw [Dict.get?_empty] at h; cases h)]
  rfl

omit [LinearOrder K] in
/-- The values of a group are its cohort. -/
theorem entries_valid {group : Dict SecurityId (Option K)} {own : String}
    (h : group.entries = (column fl values name).entries.filter fun kv => sectorOf sectors kv.1 = own) :
    (Renderer.valid fl group).entries = cohort fl values sectors name own := by
  show group.entries.filterMap _ = _
  rw [h, column, Dict.entries_map, List.filter_map, List.filterMap_map, List.filterMap_filter, cohort]
  refine List.filterMap_congr fun kv _ => ?_
  have hfinite : (finiteValue fl kv.2 name).filter fl.isFinite = finiteValue fl kv.2 name := by
    unfold finiteValue
    rw [Option.filter_filter]
    simp
  by_cases hown : sectorOf sectors kv.1 = own
  · simp [hown, hfinite]
  · simp [hown]

/-- The mid-rank of a value. -/
def midRank (group : List (SecurityId × K)) (v : K) : K :=
  (((group.map Prod.snd).filter (· < v)).length + 0.5 * (((group.map Prod.snd).filter (· = v)).length - 1)) / (group.length - 1)

theorem get?_percentileRanks {group : Dict SecurityId (Option K)} (hsize : 2 ≤ (Renderer.valid fl group).entries.length)
    {sid : SecurityId} {v : K} (hv : (sid, v) ∈ (Renderer.valid fl group).entries) :
    (percentileRanks fl group).get? sid = some (some (midRank (Renderer.valid fl group).entries v)) := by
  unfold percentileRanks
  dsimp only
  rw [if_neg (not_lt.mpr hsize)]
  refine get?_foldl_set ⟨(sid, v), hv, rfl⟩ fun item hitem hkey => ?_
  obtain ⟨sid', v'⟩ := item
  obtain rfl : sid' = sid := hkey
  obtain rfl : v' = v := by
    have hget := Dict.get?_eq_some.mpr hitem
    exact Option.some.inj (hget.symm.trans (Dict.get?_eq_some.mpr hv))
  rfl

theorem valid_of_percentileRanks {group : Dict SecurityId (Option K)} {sid : SecurityId} {p : K}
    (h : (percentileRanks fl group).get? sid = some (some p)) : ∃ v, (sid, v) ∈ (Renderer.valid fl group).entries := by
  have hnone : (group.map fun _ _ => (none : Option K)).get? sid ≠ some (some p) := by
    rw [get?_map]
    simp
  unfold percentileRanks at h
  dsimp only at h
  split at h
  · exact absurd h hnone
  · rcases Dict.of_get?_foldl_set h with ⟨item, hitem, rfl, -⟩ | hbase
    · exact ⟨item.2, hitem⟩
    · exact absurd hbase hnone

theorem keys_percentileRanks {group : Dict SecurityId (Option K)} {sid : SecurityId} {x : Option K}
    (h : (percentileRanks fl group).get? sid = some x) : sid ∈ group.keys := by
  have hbase (h : (group.map fun _ _ => (none : Option K)).get? sid = some x) : sid ∈ group.keys := by
    rw [get?_map] at h
    obtain ⟨y, hy, -⟩ := Option.map_eq_some_iff.mp h
    exact List.mem_map_of_mem (Dict.get?_eq_some.mp hy)
  unfold percentileRanks at h
  dsimp only at h
  split at h
  · exact hbase h
  · rcases Dict.of_get?_foldl_set h with ⟨item, hitem, rfl, -⟩ | h
    · obtain ⟨y, hy, -⟩ := Dict.mem_filterMap.mp hitem
      exact List.mem_map_of_mem hy
    · exact hbase h

/-- The assignments of the renderer. -/
def assigned (fl : PyFloat K) (groups : Dict String (Dict SecurityId (Option K))) : List (SecurityId × Option K) :=
  groups.values.flatMap fun group =>
    if minGroup ≤ (Renderer.valid fl group).entries.length then (percentileRanks fl group).entries else []

theorem sectorPercentiles_eq {column : Dict SecurityId (Option K)} {sector : SecurityId → String} :
    sectorPercentiles fl column sector =
      (assigned fl (Renderer.bySector column sector)).foldl (fun out kv => out.set kv.1 kv.2) (column.map fun _ _ => none) := by
  unfold sectorPercentiles assigned
  rw [List.foldl_flatMap]
  congr 1
  funext out group
  split
  · rfl
  · rfl

/-- What is assigned to a name comes from its own sector. -/
theorem mem_assigned {sid : SecurityId} {x : Option K} :
    (sid, x) ∈ assigned fl (Renderer.bySector (column fl values name) (sectorOf sectors)) ↔
      minGroup ≤ (cohort fl values sectors name (sectorOf sectors sid)).length ∧
        ∃ group : Dict SecurityId (Option K), (Renderer.bySector (column fl values name) (sectorOf sectors)).get?
          (sectorOf sectors sid) = some group ∧ (percentileRanks fl group).get? sid = some x := by
  unfold assigned
  rw [List.mem_flatMap]
  have hentries {own : String} {group : Dict SecurityId (Option K)}
      (h : (Renderer.bySector (column fl values name) (sectorOf sectors)).get? own = some group) :
      group.entries = (column fl values name).entries.filter fun kv => sectorOf sectors kv.1 = own := by
    have hgroups := get?_bySector (column fl values name) (sectorOf sectors) own
    rw [h] at hgroups
    exact hgroups
  constructor
  · intro h
    obtain ⟨group, hgroup, hx⟩ := h
    obtain ⟨own, hget⟩ := Dict.mem_values.mp hgroup
    split at hx
    · next hsize =>
      have hx := Dict.get?_eq_some.mpr hx
      have hkey := keys_percentileRanks hx
      rw [Dict.keys, hentries hget] at hkey
      obtain ⟨kv, hkv, rfl⟩ := List.mem_map.mp hkey
      obtain rfl : sectorOf sectors kv.1 = own := of_decide_eq_true (List.mem_filter.mp hkv).2
      rw [entries_valid (hentries hget)] at hsize
      exact ⟨hsize, group, hget, hx⟩
    · cases hx
  · intro h
    obtain ⟨hsize, group, hget, hx⟩ := h
    refine ⟨group, Dict.mem_values.mpr ⟨_, hget⟩, ?_⟩
    rw [entries_valid (hentries hget), if_pos hsize]
    exact Dict.get?_eq_some.mp hx

/-- What the renderer shows for a name with a value. -/
theorem rendered_eq {sid : SecurityId} {v : K} (hv : (column fl values name).get? sid = some (some v)) :
    rendered fl values sectors name sid =
      if minGroup ≤ (cohort fl values sectors name (sectorOf sectors sid)).length then
        some (midRank (cohort fl values sectors name (sectorOf sectors sid)) v) else none := by
  unfold rendered
  rw [sectorPercentiles_eq]
  have hmem : (sid, v) ∈ cohort fl values sectors name (sectorOf sectors sid) := mem_cohort.mpr ⟨rfl, hv⟩
  have hgroup : ∃ group, (Renderer.bySector (column fl values name) (sectorOf sectors)).get? (sectorOf sectors sid) =
      some group ∧ (Renderer.valid fl group).entries = cohort fl values sectors name (sectorOf sectors sid) := by
    have hentries := get?_bySector (column fl values name) (sectorOf sectors) (sectorOf sectors sid)
    cases hget : (Renderer.bySector (column fl values name) (sectorOf sectors)).get? (sectorOf sectors sid) with
    | none =>
      rw [hget] at hentries
      have hin : (sid, some v) ∈ (column fl values name).entries.filter
          fun kv => sectorOf sectors kv.1 = sectorOf sectors sid :=
        List.mem_filter.mpr ⟨Dict.get?_eq_some.mp hv, by simp⟩
      rw [← hentries] at hin
      cases hin
    | some group =>
      rw [hget] at hentries
      exact ⟨group, rfl, entries_valid hentries⟩
  obtain ⟨group, hget, hvalid⟩ := hgroup
  split
  · next hsize =>
    have hrank : (percentileRanks fl group).get? sid =
        some (some (midRank (cohort fl values sectors name (sectorOf sectors sid)) v)) := by
      rw [← hvalid]
      exact get?_percentileRanks (by rw [hvalid]; exact le_trans (by decide) hsize) (hvalid ▸ hmem)
    rw [get?_foldl_set ⟨_, mem_assigned.mpr ⟨hsize, group, hget, hrank⟩, rfl⟩]
    · rfl
    · intro item hitem hkey
      obtain ⟨sid', x⟩ := item
      obtain rfl : sid' = sid := hkey
      obtain ⟨-, group', hget', hx⟩ := mem_assigned.mp hitem
      obtain rfl : group = group' := Option.some.inj (hget.symm.trans hget')
      exact Option.some.inj (hx.symm.trans hrank)
  · next hsmall =>
    rw [get?_foldl_set_of_not]
    · rw [get?_map, hv]
      rfl
    · intro item hitem hkey
      obtain ⟨sid', x⟩ := item
      obtain rfl : sid' = sid := hkey
      exact hsmall (mem_assigned.mp hitem).1

/-- Only a name with a value has a percentile. -/
theorem value_of_rendered {sid : SecurityId} {p : K} (h : rendered fl values sectors name sid = some p) :
    ∃ v, (column fl values name).get? sid = some (some v) := by
  unfold rendered at h
  rw [sectorPercentiles_eq, Option.join_eq_some_iff] at h
  rcases Dict.of_get?_foldl_set h with ⟨item, hitem, rfl, hx⟩ | hbase
  · obtain ⟨sid, x⟩ := item
    obtain rfl : x = some p := hx
    obtain ⟨-, group, hget, hrank⟩ := mem_assigned.mp hitem
    obtain ⟨v, hv⟩ := valid_of_percentileRanks hrank
    have hentries := get?_bySector (column fl values name) (sectorOf sectors) (sectorOf sectors sid)
    rw [hget] at hentries
    rw [entries_valid hentries] at hv
    exact ⟨v, (mem_cohort.mp hv).2⟩
  · rw [get?_map] at hbase
    simp at hbase

/-! ### One rule -/

variable (fl values sectors name) in
/-- Names of one sector with equal values have equal percentiles, and one with a larger value has none that is smaller. -/
def Fair (percentile : SecurityId → Option K) : Prop :=
  ∀ sid sid' v v', (column fl values name).get? sid = some (some v) → (column fl values name).get? sid' = some (some v') →
    sectorOf sectors sid = sectorOf sectors sid' →
      (v = v' → percentile sid = percentile sid') ∧
        (v < v' → ∀ p p', percentile sid = some p → percentile sid' = some p' → p ≤ p')

variable (fl values sectors name) in
/-- No two names of one sector have equal values. -/
def NoTies : Prop :=
  ∀ sid sid' v, (column fl values name).get? sid = some (some v) → (column fl values name).get? sid' = some (some v) →
    sectorOf sectors sid = sectorOf sectors sid' → sid = sid'

variable [IsStrictOrderedRing K]

theorem denominator_pos (n : Nat) : (0 : K) < (max n 1 : Nat) := Nat.cast_pos.mpr (lt_of_lt_of_le one_pos (le_max_right _ _))

/-- A larger value has no smaller position. -/
theorem position_le {sid sid' : SecurityId} {v v' : K} (hsector : sectorOf sectors sid = sectorOf sectors sid') (hlt : v < v') :
    position fl values sectors name sid v ≤ position fl values sectors name sid' v' := by
  unfold position
  rw [hsector]
  refine div_le_div_of_nonneg_right (Nat.cast_le.mpr ?_) (denominator_pos _).le
  refine List.countP_mono_left fun y _ hy => decide_eq_true ?_
  exact (of_decide_eq_true hy).trans (rankKey_lt.mpr (.inl hlt))

/-- Two names have different positions. -/
theorem position_inj {sid sid' : SecurityId} {v v' : K} (hv : (column fl values name).get? sid = some (some v))
    (hv' : (column fl values name).get? sid' = some (some v')) (hsector : sectorOf sectors sid = sectorOf sectors sid')
    (h : position fl values sectors name sid v = position fl values sectors name sid' v') : sid = sid' := by
  unfold position at h
  rw [hsector, div_left_inj' (denominator_pos _).ne', Nat.cast_inj] at h
  have hnodup : (cohort fl values sectors name (sectorOf sectors sid')).Nodup := List.Nodup.of_map _ (cohort_nodup _)
  have hmem : (sid, v) ∈ cohort fl values sectors name (sectorOf sectors sid') := mem_cohort.mpr ⟨hsector, hv⟩
  have hmem' : (sid', v') ∈ cohort fl values sectors name (sectorOf sectors sid') := mem_cohort.mpr ⟨rfl, hv'⟩
  have hitem := (getElem?_ordered hnodup).mpr ⟨hmem, rfl⟩
  have hitem' := (getElem?_ordered hnodup).mpr ⟨hmem', rfl⟩
  rw [h] at hitem
  exact congrArg Prod.fst (Option.some.inj (hitem.symm.trans hitem'))

omit [IsStrictOrderedRing K] in
/-- Without ties the mid-rank is the position. -/
theorem midRank_eq_position (hties : NoTies fl values sectors name) {sid : SecurityId} {v : K}
    (hv : (column fl values name).get? sid = some (some v))
    (hsize : minGroup ≤ (cohort fl values sectors name (sectorOf sectors sid)).length) :
    midRank (cohort fl values sectors name (sectorOf sectors sid)) v = position fl values sectors name sid v := by
  have hmem : (sid, v) ∈ cohort fl values sectors name (sectorOf sectors sid) := mem_cohort.mpr ⟨rfl, hv⟩
  have hnodup : (cohort fl values sectors name (sectorOf sectors sid)).Nodup := List.Nodup.of_map _ (cohort_nodup _)
  have hown : ∀ y ∈ cohort fl values sectors name (sectorOf sectors sid), y.2 = v → y = (sid, v) := fun y hy heq => by
    obtain ⟨hsector, hcol⟩ := mem_cohort.mp hy
    exact Prod.ext (hties y.1 sid v (heq ▸ hcol) hv hsector) heq
  unfold position midRank
  generalize cohort fl values sectors name (sectorOf sectors sid) = group at *
  have hequal : ((group.map Prod.snd).filter (· = v)).length = 1 := by
    rw [← List.countP_eq_length_filter, List.countP_map, ← List.count_eq_one_of_mem hnodup hmem]
    refine List.countP_congr fun y hy => ?_
    simp only [Function.comp_apply, decide_eq_true_eq, beq_iff_eq]
    exact ⟨hown y hy, fun heq => by rw [heq]⟩
  have hless : ((group.map Prod.snd).filter (· < v)).length = before group (sid, v) := by
    rw [← List.countP_eq_length_filter, List.countP_map]
    refine List.countP_congr fun y hy => ?_
    simp only [Function.comp_apply, decide_eq_true_eq, rankKey_lt]
    refine ⟨.inl, fun h => h.resolve_right fun htie => ?_⟩
    rw [hown y hy htie.1] at htie
    exact lt_irrefl _ htie.2
  have hsize : 3 ≤ group.length := hsize
  have hdenominator : ((max (group.length - 1) 1 : Nat) : K) = (group.length : K) - 1 := by
    rw [Nat.max_eq_left (by omega), Nat.cast_sub (by omega), Nat.cast_one]
  rw [hequal, hless, hdenominator]
  simp

variable (fl values sectors name) in
/-- What one rule for the sector percentile means: what the renderer shows is what the builder stores, and both are fair. -/
structure OneRule (out : Dict SecurityId (Dict String (FeatureValue K))) : Prop where
  agree : ∀ sid p, rendered fl values sectors name sid = some p → stored out name sid = some p
  stored_fair : Fair fl values sectors name (stored out name)
  rendered_fair : Fair fl values sectors name (rendered fl values sectors name)

omit [Field K] [IsStrictOrderedRing K] in
/-- What is at most a value is less than a larger one. -/
theorem less_add_equal_le {v v' : K} (hlt : v < v') (l : List K) :
    (l.filter (· < v)).length + (l.filter (· = v)).length ≤ (l.filter (· < v')).length := by
  induction l with
  | nil => exact le_rfl
  | cons x l ih =>
    rcases lt_trichotomy x v with h | rfl | h
    · have hne : x ≠ v := h.ne
      simp only [List.filter_cons, decide_eq_true h, decide_eq_false hne, decide_eq_true (h.trans hlt), if_true,
        Bool.false_eq_true, if_false, List.length_cons]
      omega
    · simp only [List.filter_cons, decide_eq_true hlt, lt_irrefl, decide_false, decide_true, if_true, Bool.false_eq_true,
        if_false, List.length_cons]
      omega
    · simp only [List.filter_cons, decide_eq_false h.not_gt, decide_eq_false h.ne', Bool.false_eq_true, if_false]
      refine ih.trans ?_
      split
      · exact Nat.le_succ _
      · exact le_rfl

/-- A larger value has no smaller mid-rank. -/
theorem midRank_le {group : List (SecurityId × K)} (hsize : minGroup ≤ group.length) {item item' : SecurityId × K}
    (hmem : item ∈ group) (hmem' : item' ∈ group) (hlt : item.2 < item'.2) :
    midRank group item.2 ≤ midRank group item'.2 := by
  have hpos (y : SecurityId × K) (hy : y ∈ group) : 1 ≤ (((group.map Prod.snd).filter (· = y.2)).length : K) := by
    have hin : y.2 ∈ (group.map Prod.snd).filter (· = y.2) := List.mem_filter.mpr ⟨List.mem_map_of_mem hy, by simp⟩
    exact_mod_cast List.length_pos_of_mem hin
  have hless : (((group.map Prod.snd).filter (· < item.2)).length : K) + ((group.map Prod.snd).filter (· = item.2)).length ≤
      ((group.map Prod.snd).filter (· < item'.2)).length := by
    exact_mod_cast less_add_equal_le hlt (group.map Prod.snd)
  have hdenominator : (0 : K) ≤ (group.length : K) - 1 := by
    have hone : 1 ≤ group.length := le_trans (by decide) hsize
    exact sub_nonneg.mpr (by exact_mod_cast hone)
  have h := hpos item hmem
  have h' := hpos item' hmem'
  unfold midRank
  refine div_le_div_of_nonneg_right ?_ hdenominator
  norm_num
  linarith

/-- The percentile of the renderer is fair in every sector. -/
theorem rendered_fair : Fair fl values sectors name (rendered fl values sectors name) := by
  intro sid sid' v v' hv hv' hsector
  rw [rendered_eq hv, rendered_eq hv', hsector]
  refine ⟨fun heq => by rw [heq], fun hlt p p' hp hp' => ?_⟩
  split at hp
  · next hsize =>
    rw [if_pos hsize] at hp'
    obtain rfl := Option.some.inj hp
    obtain rfl := Option.some.inj hp'
    have hmem : (sid, v) ∈ cohort fl values sectors name (sectorOf sectors sid') := mem_cohort.mpr ⟨hsector, hv⟩
    have hmem' : (sid', v') ∈ cohort fl values sectors name (sectorOf sectors sid') := mem_cohort.mpr ⟨rfl, hv'⟩
    exact midRank_le hsize hmem hmem' hlt
  · cases hp

/-- The builder and the renderer have one rule exactly where no two names of a sector have equal values. -/
theorem oneRule_iff {out : Dict SecurityId (Dict String (FeatureValue K))}
    (h : addSectorPercentiles fl values sectors names = some out) (hname : name ∈ names) :
    OneRule fl values sectors name out ↔ NoTies fl values sectors name := by
  constructor
  · intro hrule sid sid' v hv hv' hsector
    have hequal := (hrule.stored_fair sid sid' v v hv hv' hsector).1 rfl
    rw [stored_eq h hname hv, stored_eq h hname hv'] at hequal
    exact position_inj hv hv' hsector (Option.some.inj hequal)
  · intro hties
    refine ⟨fun sid p hp => ?_, fun sid sid' v v' hv hv' hsector => ⟨?_, ?_⟩, rendered_fair⟩
    · obtain ⟨v, hv⟩ := value_of_rendered hp
      rw [rendered_eq hv] at hp
      split at hp
      · next hsize =>
        rw [stored_eq h hname hv, ← hp, midRank_eq_position hties hv hsize]
      · cases hp
    · intro heq
      subst heq
      rw [hties sid sid' v hv hv' hsector]
    · intro hlt p p' hp hp'
      rw [stored_eq h hname hv] at hp
      rw [stored_eq h hname hv'] at hp'
      obtain rfl := Option.some.inj hp
      obtain rfl := Option.some.inj hp'
      exact position_le hsector hlt

end Cohorts

/-! ### A tie -/

section Sample

/-- Numbers that are all finite. -/
def finiteFloat : PyFloat ℚ := ⟨fun _ => true, fun _ => 0, fun _ => "0"⟩

def nameId (n : Nat) : SecurityId := ⟨n + 1, Samples.succ_securityId n⟩

/-- Names of one sector with a value each. -/
def ratios (xs : List ℚ) : Dict SecurityId (Dict String (FeatureValue ℚ)) :=
  xs.zipIdx.foldl (fun d x => d.set (nameId x.2) (Dict.empty.set "ev_sales" (.number x.1))) Dict.empty

def oneSector (n : Nat) : Dict SecurityId String :=
  (List.range n).foldl (fun d i => d.set (nameId i) "Energy") Dict.empty

theorem oneRule_iff_distinct : ∃ out, addSectorPercentiles finiteFloat (ratios [3, 1, 2]) (oneSector 3) ["ev_sales"] =
      some out ∧
    (OneRule finiteFloat (ratios [3, 1, 2]) (oneSector 3) "ev_sales" out ↔
      NoTies finiteFloat (ratios [3, 1, 2]) (oneSector 3) "ev_sales") := by
  have hsome : (addSectorPercentiles finiteFloat (ratios [3, 1, 2]) (oneSector 3) ["ev_sales"]).isSome := by
    decide
  obtain ⟨out, hout⟩ := Option.isSome_iff_exists.mp hsome
  exact ⟨out, hout, oneRule_iff hout List.mem_cons_self⟩

/-- Two names with one value: the builder stores 0 for the one and one half for the other. -/
theorem stored_tied : ∃ out, addSectorPercentiles finiteFloat (ratios [1, 1, 2]) (oneSector 3) ["ev_sales"] =
      some out ∧ ¬OneRule finiteFloat (ratios [1, 1, 2]) (oneSector 3) "ev_sales" out := by
  have hsome : (addSectorPercentiles finiteFloat (ratios [1, 1, 2]) (oneSector 3) ["ev_sales"]).isSome := by
    decide
  obtain ⟨out, hout⟩ := Option.isSome_iff_exists.mp hsome
  refine ⟨out, hout, fun hrule => ?_⟩
  have hcolumn (i : Nat) (hi : i < 2) :
      (column finiteFloat (ratios [1, 1, 2]) "ev_sales").get? (nameId i) = some (some 1) := by
    interval_cases i <;> decide
  have hsector : sectorOf (oneSector 3) (nameId 0) = sectorOf (oneSector 3) (nameId 1) := by decide
  have hequal := (hrule.stored_fair _ _ 1 1 (hcolumn 0 (by omega)) (hcolumn 1 (by omega)) hsector).1 rfl
  rw [stored_eq hout List.mem_cons_self (hcolumn 0 (by omega)), stored_eq hout List.mem_cons_self (hcolumn 1 (by omega))] at hequal
  have hsame := position_inj (hcolumn 0 (by omega)) (hcolumn 1 (by omega)) hsector (Option.some.inj hequal)
  exact absurd hsame (by decide)

end Sample
end Builder
end AsymmetricCommittee
