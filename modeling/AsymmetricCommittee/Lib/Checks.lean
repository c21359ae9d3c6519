import Mathlib.Data.List.Basic

/-! Programs that make checks in an order and stop at the first that blocks. What such a program raises tells which check
    that was; when it returns, none blocks. -/

namespace Checks

section First
variable {χ : Type*} {blocked : χ → Prop} {c d : χ} {order order' : List χ}

/-- The first check of the order that blocks. -/
def FirstOf (blocked : χ → Prop) (order : List χ) (c : χ) : Prop :=
  ∃ before after, order = before ++ c :: after ∧ (∀ d ∈ before, ¬blocked d) ∧ blocked c

theorem FirstOf.head (h : blocked c) : FirstOf blocked (c :: order) c :=
  ⟨[], order, rfl, List.forall_mem_nil _, h⟩

theorem FirstOf.skip (h : FirstOf blocked order c) (hd : ¬blocked d) : FirstOf blocked (d :: order) c := by
  obtain ⟨before, after, rfl, hbefore, hc⟩ := h
  exact ⟨d :: before, after, rfl, List.forall_mem_cons.mpr ⟨hd, hbefore⟩, hc⟩

/-- Checks after it change nothing. -/
theorem FirstOf.append_right (h : FirstOf blocked order c) : FirstOf blocked (order ++ order') c := by
  obtain ⟨before, after, rfl, hbefore, hc⟩ := h
  exact ⟨before, after ++ order', by rw [List.append_assoc, List.cons_append], hbefore, hc⟩

/-- Nor do checks before it that do not block. -/
theorem FirstOf.append_left (h : FirstOf blocked order c) (hpass : ∀ d ∈ order', ¬blocked d) :
    FirstOf blocked (order' ++ order) c := by
  obtain ⟨before, after, rfl, hbefore, hc⟩ := h
  refine ⟨order' ++ before, after, (List.append_assoc _ _ _).symm, fun d hd => ?_, hc⟩
  rcases List.mem_append.mp hd with hd | hd
  · exact hpass d hd
  · exact hbefore d hd

end First

section Makes
variable {χ ε α β : Type*} {blocked : χ → Prop} {reports : ε → χ → Prop} {stray : ε → Prop} {order order' : List χ}
  {x : Except ε α} {Q : α → Prop} {R : β → Prop}

/-- The program makes the checks in their order: it returns what `Q` says of, and none blocks, or it raises what reports
    the first that blocks. What is raised besides is stray. -/
def Makes (blocked : χ → Prop) (reports : ε → χ → Prop) (stray : ε → Prop) (order : List χ) (x : Except ε α)
    (Q : α → Prop) : Prop :=
  match x with
  | .ok a => Q a ∧ ∀ c ∈ order, ¬blocked c
  | .error e => stray e ∨ ∃ c, FirstOf blocked order c ∧ reports e c

theorem Makes.ok {a : α} (hQ : Q a) (hpass : ∀ c ∈ order, ¬blocked c) :
    Makes blocked reports stray order (.ok a) Q := ⟨hQ, hpass⟩

theorem Makes.error {e : ε} {c : χ} (hfirst : FirstOf blocked order c) (hreports : reports e c) :
    Makes blocked reports stray order (.error e : Except ε α) Q := Or.inr ⟨c, hfirst, hreports⟩

/-- Checks one after the other. -/
theorem Makes.bind {f : α → Except ε β} (hx : Makes blocked reports stray order x Q)
    (hf : ∀ a, Q a → Makes blocked reports stray order' (f a) R) :
    Makes blocked reports stray (order ++ order') (x.bind f) R := by
  cases x with
  | error e =>
    rcases hx with hstray | ⟨c, hfirst, hreports⟩
    · exact Or.inl hstray
    · exact Or.inr ⟨c, hfirst.append_right, hreports⟩
  | ok a =>
    obtain ⟨hQ, hpass⟩ := hx
    have hrest := hf a hQ
    change Makes blocked reports stray (order ++ order') (f a) R
    cases hfa : f a with
    | error e =>
      rw [hfa] at hrest
      rcases hrest with hstray | ⟨c, hfirst, hreports⟩
      · exact Or.inl hstray
      · exact Or.inr ⟨c, hfirst.append_left hpass, hreports⟩
    | ok b =>
      rw [hfa] at hrest
      refine ⟨hrest.1, fun c hc => ?_⟩
      rcases List.mem_append.mp hc with hc | hc
      · exact hpass c hc
      · exact hrest.2 c hc

end Makes
end Checks
