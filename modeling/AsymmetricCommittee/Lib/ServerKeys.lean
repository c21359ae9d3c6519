import Mathlib.Data.List.Sort
import Mathlib.Data.Prod.Lex
import Mathlib.Data.String.Basic
import Mathlib.Tactic.Common

/-! What scripts see of a key-value server: its clock, keys that expire, and sorted sets. -/

/-- What `TIME` returns: seconds, and the microseconds of the second. -/
structure ServerTime where
  seconds : Nat
  micros : Nat
  micros_lt : micros < 1000000
  deriving DecidableEq

namespace ServerTime

def us (t : ServerTime) : Int := t.seconds * 1000000 + t.micros

/-- The milliseconds that expiry counts in. -/
def ms (t : ServerTime) : Int := t.seconds * 1000 + t.micros / 1000

theorem ms_eq (t : ServerTime) : t.ms = t.us / 1000 := by
  unfold ms us
  omega

theorem ms_le {t t' : ServerTime} (h : t.us ≤ t'.us) : t.ms ≤ t'.ms := by
  rw [ms_eq, ms_eq]
  exact Int.ediv_le_ediv (by decide) h

end ServerTime

/-- What a key holds, with the last millisecond that it is held. -/
structure ExpiringKey (V : Type*) where
  held : Option (V × Int)

namespace ExpiringKey
variable {V : Type*} {v : V} {t t' : ServerTime} {ttl : Int}

def absent : ExpiringKey V := ⟨none⟩

def read (k : ExpiringKey V) (t : ServerTime) : Option V := (k.held.filter fun e => t.ms ≤ e.2).map Prod.fst

/-- A value that is written, and `PEXPIRE`: a time to live that is not positive drops the key. -/
def expiring (v : V) (t : ServerTime) (ttl : Int) : ExpiringKey V := ⟨if 0 < ttl then some (v, t.ms + ttl) else none⟩

/-- A value that is changed and keeps its time to live. -/
def change (k : ExpiringKey V) (v : V) : ExpiringKey V := ⟨k.held.map fun e => (v, e.2)⟩

@[simp] theorem read_absent : (absent : ExpiringKey V).read t = none := rfl

theorem read_expiring : (expiring v t ttl).read t' = if 0 < ttl ∧ t'.ms ≤ t.ms + ttl then some v else none := by
  by_cases hpos : 0 < ttl
  · by_cases halive : t'.ms ≤ t.ms + ttl
    · simp [read, expiring, hpos, halive, Option.filter]
    · simp [read, expiring, hpos, halive, Option.filter]
  · simp [read, expiring, hpos]

theorem read_change {k : ExpiringKey V} : (k.change v).read t = (k.read t).map fun _ => v := by
  obtain ⟨_ | e⟩ := k
  · rfl
  · by_cases halive : t.ms ≤ e.2
    · simp [read, change, halive, Option.filter]
    · simp [read, change, halive, Option.filter]

/-- What a key holds later it holds now. -/
theorem read_earlier {k : ExpiringKey V} (ht : t.us ≤ t'.us) (h : k.read t' = some v) : k.read t = some v := by
  obtain ⟨_ | e⟩ := k
  · cases h
  · have hms := ServerTime.ms_le ht
    have halive : t'.ms ≤ e.2 := by
      by_contra hdead
      simp [read, hdead, Option.filter] at h
    have hnow : t.ms ≤ e.2 := hms.trans halive
    simpa [read, halive, hnow, Option.filter] using h

end ExpiringKey

/-- A sorted set: its members with their scores, in the order of the scores and then of the members. -/
structure SortedSet where
  entries : List (Int ×ₗ String)
  sorted : entries.Pairwise (· ≤ ·)

namespace SortedSet

def empty : SortedSet := ⟨[], List.Pairwise.nil⟩

/-- `ZADD`: a member that the set has moves to its new score. -/
def zadd (s : SortedSet) (score : Int) (member : String) : SortedSet where
  entries := (s.entries.filter fun e => (ofLex e).2 ≠ member).orderedInsert (· ≤ ·) (toLex (score, member))
  sorted := (s.sorted.filter _).orderedInsert _ _

/-- `ZREMRANGEBYSCORE` from `-inf`. -/
def zremUpTo (s : SortedSet) (max : Int) : SortedSet where
  entries := s.entries.filter fun e => max < (ofLex e).1
  sorted := s.sorted.filter _

def zcard (s : SortedSet) : Nat := s.entries.length

/-- The score that `ZRANGE` from 0 to 0 returns. -/
def lowest (s : SortedSet) : Option Int := s.entries.head?.map fun e => (ofLex e).1

def scores (s : SortedSet) : List Int := s.entries.map fun e => (ofLex e).1

def members (s : SortedSet) : List String := s.entries.map fun e => (ofLex e).2

@[simp] theorem length_scores (s : SortedSet) : s.scores.length = s.zcard := List.length_map ..

theorem scores_zremUpTo (s : SortedSet) (max : Int) : (s.zremUpTo max).scores = s.scores.filter (max < ·) := by
  unfold scores zremUpTo
  rw [List.filter_map]
  rfl

theorem members_zremUpTo_subset (s : SortedSet) (max : Int) : (s.zremUpTo max).members ⊆ s.members := fun _ h => by
  obtain ⟨e, he, rfl⟩ := List.mem_map.mp h
  exact List.mem_map_of_mem (List.mem_of_mem_filter he)

/-- A member that is new is added. -/
theorem scores_zadd {s : SortedSet} {score : Int} {member : String} (h : member ∉ s.members) :
    (s.zadd score member).scores.Perm (score :: s.scores) := by
  have hall : s.entries.filter (fun e => (ofLex e).2 ≠ member) = s.entries :=
    List.filter_eq_self.mpr fun e he => decide_eq_true fun heq => h (List.mem_map.mpr ⟨e, he, heq⟩)
  have hperm : (s.zadd score member).entries.Perm (toLex (score, member) :: s.entries) := by
    refine (List.perm_orderedInsert _ _ _).trans ?_
    rw [hall]
  exact hperm.map _

theorem mem_members_zadd {s : SortedSet} {score : Int} {member m : String} (h : m ∈ (s.zadd score member).members) :
    m = member ∨ m ∈ s.members := by
  obtain ⟨e, he, rfl⟩ := List.mem_map.mp h
  rcases (List.mem_orderedInsert _).mp he with rfl | he
  · exact .inl rfl
  · exact .inr (List.mem_map_of_mem (List.mem_of_mem_filter he))

/-- The first entry has the lowest score. -/
theorem lowest_eq_min? (s : SortedSet) : s.lowest = s.scores.min? := by
  obtain ⟨entries, hsorted⟩ := s
  cases entries with
  | nil => rfl
  | cons e rest =>
    refine (List.min?_eq_some_iff.mpr ⟨List.mem_cons_self, fun score hscore => ?_⟩).symm
    rcases List.mem_cons.mp hscore with rfl | hrest
    · exact le_rfl
    · obtain ⟨e', he', rfl⟩ := List.mem_map.mp hrest
      exact Prod.Lex.monotone_fst _ _ (List.rel_of_pairwise_cons hsorted he')

end SortedSet
