import Mathlib.Logic.Basic

/-! Locks that one party holds at a time. A party whose session ends loses its locks and does not get them back; until then the
    others leave them to it. -/

namespace AsymmetricCommittee

/-- Which party holds each lock, and which parties have lost their sessions. -/
structure Locks (κ : Type) where
  holder : κ → Option Nat
  lost : Nat → Prop

namespace Locks
variable {κ : Type} {s s' s'' : Locks κ} {n m : Nat} {k : κ}

/-- No lock is held. -/
def idle : Locks κ := ⟨fun _ => none, fun _ => False⟩

/-- The lock is free or the party's own. -/
def Grantable (s : Locks κ) (n : Nat) (k : κ) : Prop := s.holder k = none ∨ s.holder k = some n

instance (s : Locks κ) (n : Nat) (k : κ) : Decidable (s.Grantable n k) := inferInstanceAs (Decidable (_ ∨ _))

/-- The session of a party ends: its locks are free. -/
def lose (s : Locks κ) (n : Nat) : Locks κ :=
  ⟨fun l => if s.holder l = some n then none else s.holder l, fun m => m = n ∨ s.lost m⟩

section Moves
variable [DecidableEq κ]

def take (s : Locks κ) (n : Nat) (k : κ) : Locks κ := { s with holder := fun l => if l = k then some n else s.holder l }

/-- A party frees a lock of its own. -/
def release (s : Locks κ) (n : Nat) (k : κ) : Locks κ :=
  { s with holder := fun l => if l = k ∧ s.holder l = some n then none else s.holder l }

@[simp] theorem lost_take : (s.take n k).lost = s.lost := rfl

@[simp] theorem lost_release : (s.release n k).lost = s.lost := rfl

@[simp] theorem holder_take : (s.take n k).holder k = some n := if_pos rfl

end Moves

/-! ### What a party may count on -/

/-- A party keeps its locks until it loses its session. -/
structure Rely (n : Nat) (s s' : Locks κ) : Prop where
  lost : s.lost n → s'.lost n
  held : ∀ k, s.holder k = some n → s'.lost n ∨ s'.holder k = some n

theorem Rely.refl (n : Nat) (s : Locks κ) : Rely n s s := ⟨id, fun _ hk => Or.inr hk⟩

theorem Rely.trans (h : Rely n s s') (h' : Rely n s' s'') : Rely n s s'' :=
  ⟨fun hl => h'.lost (h.lost hl), fun k hk => (h.held k hk).elim (fun hl => Or.inl (h'.lost hl)) (h'.held k)⟩

theorem rely_lose (s : Locks κ) (n m : Nat) : Rely n s (s.lose m) := by
  refine ⟨Or.inr, fun k hk => ?_⟩
  by_cases hnm : n = m
  · exact Or.inl (Or.inl hnm)
  · refine Or.inr ((if_neg ?_).trans hk)
    rw [hk]
    exact fun h => hnm (Option.some.inj h)

section Others
variable [DecidableEq κ] (hnm : n ≠ m)
include hnm

theorem rely_take (h : s.Grantable m k) : Rely n s (s.take m k) := by
  refine ⟨id, fun l hl => Or.inr ((if_neg ?_).trans hl)⟩
  rintro rfl
  rcases h with hnone | hown
  · rw [hnone] at hl
    cases hl
  · rw [hown] at hl
    exact hnm (Option.some.inj hl).symm

theorem rely_release (s : Locks κ) (k : κ) : Rely n s (s.release m k) := by
  refine ⟨id, fun l hl => Or.inr ((if_neg ?_).trans hl)⟩
  rintro ⟨-, hown⟩
  rw [hl] at hown
  exact hnm (Option.some.inj hown)

end Others

/-- A party has a lock, or has lost its session. -/
def Has (n : Nat) (k : κ) (s : Locks κ) : Prop := s.lost n ∨ s.holder k = some n

theorem Has.rely (h : Has n k s) (hr : Rely n s s') : Has n k s' := h.elim (fun hl => Or.inl (hr.lost hl)) (hr.held k)

/-- Two parties with their sessions do not have one lock. -/
theorem Has.unique (h : Has n k s) (h' : Has m k s) (hn : ¬s.lost n) (hm : ¬s.lost m) : n = m :=
  Option.some.inj ((h.resolve_left hn).symm.trans (h'.resolve_left hm))

end Locks
end AsymmetricCommittee
