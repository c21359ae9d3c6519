import AsymmetricCommittee.Lib.Except

/-! Inserting in pieces, each piece checked against the table after it. Where a check that passes passes for ever, and a
    check of a row says after its own piece what it says later, the pieces do not matter: the write succeeds exactly when
    every row passes in the table after all of them. -/

/-- What a piecewise insertion of the admitted rows has to satisfy; `Good t r` says that row `r` passes in table `t`. -/
structure CheckedInsert {σ ρ ε : Type} (insert : List σ → List ρ → List σ) (Good : List σ → ρ → Prop)
    (Admitted : ρ → Prop) (step : List σ × Nat → List ρ → Except ε (List σ × Nat)) : Prop where
  step_eq_ok : ∀ s rs s', step s rs = .ok s' ↔
    (∀ r ∈ rs, Good (insert s.1 rs) r) ∧ s' = (insert s.1 rs, s.2 + ((insert s.1 rs).length - s.1.length))
  insert_nil : ∀ t, insert t [] = t
  insert_append : ∀ t rs rs', insert t (rs ++ rs') = insert (insert t rs) rs'
  grows : ∀ t rs, t.length ≤ (insert t rs).length
  later : ∀ t rs r, Good t r → Good (insert t rs) r
  earlier : ∀ t rs rs' r, Admitted r → r ∈ rs → Good (insert (insert t rs) rs') r → Good (insert t rs) r

namespace CheckedInsert
variable {σ ρ ε : Type} {insert : List σ → List ρ → List σ} {Good : List σ → ρ → Prop}
  {Admitted : ρ → Prop} {step : List σ × Nat → List ρ → Except ε (List σ × Nat)}

theorem foldlM_eq_ok (h : CheckedInsert insert Good Admitted step) {pieces : List (List ρ)} {s s' : List σ × Nat}
    (hadmitted : ∀ r ∈ pieces.flatten, Admitted r) : pieces.foldlM step s = .ok s' ↔
      (∀ r ∈ pieces.flatten, Good (insert s.1 pieces.flatten) r) ∧
        s' = (insert s.1 pieces.flatten, s.2 + ((insert s.1 pieces.flatten).length - s.1.length)) := by
  induction pieces generalizing s with
  | nil =>
    simp [h.insert_nil, pure, Except.pure, eq_comm]
  | cons rs pieces ih =>
    have hadmits := List.forall_mem_append.mp hadmitted
    have hlen := h.grows s.1 rs
    have hlen' := h.grows (insert s.1 rs) pieces.flatten
    rw [List.foldlM_cons, List.flatten_cons, h.insert_append]
    constructor
    · intro hrun
      obtain ⟨s₁, hs₁, hrun⟩ := Except.bind_eq_ok.mp hrun
      obtain ⟨hrs, rfl⟩ := (h.step_eq_ok _ _ _).mp hs₁
      obtain ⟨hrest, rfl⟩ := (ih hadmits.2).mp hrun
      refine ⟨fun r hr => ?_, ?_⟩
      · rcases List.mem_append.mp hr with hr | hr
        · exact h.later _ _ r (hrs r hr)
        · exact hrest r hr
      · simp only [Prod.mk.injEq, true_and]
        omega
    · rintro ⟨hgood, rfl⟩
      refine Except.bind_eq_ok.mpr ⟨_, (h.step_eq_ok _ _ _).mpr ⟨fun r hr => ?_, rfl⟩, (ih hadmits.2).mpr ⟨fun r hr => ?_, ?_⟩⟩
      · exact h.earlier _ _ _ r (hadmits.1 r hr) hr (hgood r (List.mem_append_left _ hr))
      · exact hgood r (List.mem_append_right _ hr)
      · simp only [Prod.mk.injEq, true_and]
        omega

end CheckedInsert
