import Mathlib.Data.List.Chain
import Mathlib.Data.List.Pairwise
import Mathlib.Order.Basic

/-! Closed spans of an order, in a list that ascends by their starts. Where each ends before its neighbour starts, no two
    of them meet, and conversely. -/

namespace Spans
variable {ι α : Type*} [Preorder α] {lo hi : ι → α} {l m : List ι}

/-- The span of `a` ends before the one of `b` starts. -/
def Before (lo hi : ι → α) (a b : ι) : Prop := hi a < lo b

def Apart (lo hi : ι → α) (a b : ι) : Prop := Before lo hi a b ∨ Before lo hi b a

/-- The point is in the span of `a`. -/
def Holds (lo hi : ι → α) (x : α) (a : ι) : Prop := lo a ≤ x ∧ x ≤ hi a

theorem Apart.symm {a b : ι} (h : Apart lo hi a b) : Apart lo hi b a := Or.symm h

theorem not_before_of_holds {x : α} {a b : ι} (ha : Holds lo hi x a) (hb : Holds lo hi x b) : ¬Before lo hi a b :=
  fun h => lt_irrefl _ (h.trans_le (hb.1.trans ha.2))

theorem not_apart_of_holds {x : α} {a b : ι} (ha : Holds lo hi x a) (hb : Holds lo hi x b) : ¬Apart lo hi a b := by
  intro h
  rcases h with h | h
  · exact not_before_of_holds ha hb h
  · exact not_before_of_holds hb ha h

/-- Each ends before its neighbour starts, so it ends before every later one starts. -/
theorem pairwise_of_isChain (hspan : ∀ a ∈ l, lo a ≤ hi a) (h : l.IsChain (Before lo hi)) : l.Pairwise (Before lo hi) := by
  induction l with
  | nil => exact List.Pairwise.nil
  | cons a l ih =>
    rcases List.forall_mem_cons.mp hspan with ⟨ha, hl⟩
    have hrest := ih hl h.tail
    refine List.pairwise_cons.mpr ⟨fun b hb => ?_, hrest⟩
    cases l with
    | nil => cases hb
    | cons c l =>
      have hac : hi a < lo c := h.rel
      rcases List.mem_cons.mp hb with rfl | hb
      · exact hac
      · have hcb : hi c < lo b := List.rel_of_pairwise_cons hrest hb
        exact hac.trans_le ((hl c List.mem_cons_self).trans hcb.le)

/-- In a list that ascends by the starts, the neighbours tell whether any two spans meet. -/
theorem isChain_before_iff (hspan : ∀ a ∈ l, lo a ≤ hi a) (hsort : l.Pairwise fun a b => lo a ≤ lo b) :
    l.IsChain (Before lo hi) ↔ l.Pairwise (Apart lo hi) := by
  constructor
  · intro h
    exact (pairwise_of_isChain hspan h).imp Or.inl
  · intro h
    have hbefore : l.Pairwise (Before lo hi) := by
      refine (hsort.and h).imp_of_mem fun {a b} ha hb hab => ?_
      rcases hab.2 with hlt | hlt
      · exact hlt
      · exact absurd (hlt.trans_le hab.1) (not_lt_of_ge (hspan b hb))
    exact hbefore.isChain

/-- Spans that are apart have no point in common. -/
theorem eq_of_holds (h : l.Pairwise (Apart lo hi)) {x : α} {a b : ι} (ha : a ∈ l) (hb : b ∈ l) (hxa : Holds lo hi x a)
    (hxb : Holds lo hi x b) : a = b := by
  by_contra hne
  have : Std.Symm (Apart lo hi) := ⟨fun _ _ hab => hab.symm⟩
  exact not_apart_of_holds hxa hxb (h.forall ha hb hne)

/-- A point is in at most one of them, however often a span is listed. -/
theorem length_filter_holds_le (h : l.Pairwise (Apart lo hi)) {x : α} {p : ι → Bool}
    (hp : ∀ a, p a = true → Holds lo hi x a) : (l.filter p).length ≤ 1 := by
  have hfilter := h.filter p
  have hholds : ∀ a ∈ l.filter p, Holds lo hi x a := by
    intro a ha
    exact hp a (List.mem_filter.mp ha).2
  rcases hl : l.filter p with - | ⟨a, - | ⟨b, rest⟩⟩
  · exact Nat.zero_le 1
  · exact le_rfl
  · rw [hl] at hfilter hholds
    have hab := List.rel_of_pairwise_cons hfilter List.mem_cons_self
    exact absurd hab (not_apart_of_holds (hholds a List.mem_cons_self)
      (hholds b (List.mem_cons_of_mem a List.mem_cons_self)))

/-- Whether all are apart is no matter of the order they are listed in. -/
theorem pairwise_apart_perm (h : l.Perm m) : l.Pairwise (Apart lo hi) ↔ m.Pairwise (Apart lo hi) :=
  h.pairwise_iff fun hab => hab.symm

end Spans
