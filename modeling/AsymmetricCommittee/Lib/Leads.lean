import AsymmetricCommittee.Lib.Program

/-! Steps between worlds. What steps come to is stated of the world they end in, beside a relation from the world they began
    in: what they leave unchanged, or may only add to. -/

namespace AsymmetricCommittee
namespace Act

section Leads
variable {I : Interface} {W : Type} {σ ε α β : Type} {C : Contract I W} {R R' : W → W → Prop} {w : W}
  {m : Act I σ ε α} {f : α → Act I σ ε β} {Q Q' : Except ε α → W → Prop} {P : Except ε β → W → Prop}

/-- From a world on the steps may be taken; they end in a world that the relation leads to, and come to what is stated. -/
def Leads (C : Contract I W) (R : W → W → Prop) (m : Act I σ ε α) (Q : Except ε α → W → Prop) (w : W) : Prop :=
  ∀ s, m.Meets C s (fun x _ w' => R w w' ∧ Q x w') w

/-- The relation holds of what the others do, and of step after step. -/
structure Course (C : Contract I W) (R : W → W → Prop) : Prop where
  rely : ∀ w w', C.rely w w' → R w w'
  trans : ∀ w w' w'', R w w' → R w' w'' → R w w''

theorem leads_pure (hR : Course C R) {a : α} (h : ∀ w', C.rely w w' → Q (.ok a) w') : Leads C R (pure a : Act I σ ε α) Q w :=
  fun _ w' hr _ => ⟨hR.rely w w' hr, h w' hr⟩

theorem leads_throw (hR : Course C R) {error : ε} (h : ∀ w', C.rely w w' → Q (.error error) w') :
    Leads C R (throw error : Act I σ ε α) Q w := fun _ w' hr _ => ⟨hR.rely w w' hr, h w' hr⟩

theorem leads_modify (hR : Course C R) {g : σ → σ} {Q : Except ε Unit → W → Prop} (h : ∀ w', C.rely w w' → Q (.ok ()) w') :
    Leads C R (modify g : Act I σ ε Unit) Q w := fun _ w' hr _ => ⟨hR.rely w w' hr, h w' hr⟩

theorem Leads.mono (h : m.Leads C R Q w) (hQ : ∀ x w', R w w' → Q x w' → Q' x w') : m.Leads C R Q' w :=
  fun s => (h s).mono fun x _ w' _ hx => ⟨hx.1, hQ x w' hx.1 hx.2⟩

/-- The same steps under a weaker relation. -/
theorem Leads.weaken (h : m.Leads C R Q w) (hRR' : ∀ w', R w w' → R' w w') : m.Leads C R' Q w :=
  fun s => (h s).mono fun _ _ w' _ hx => ⟨hRR' w' hx.1, hx.2⟩

/-- Steps under a relation, and then others under a weaker one. -/
theorem Leads.bind_weaken (hR' : Course C R') (hRR' : ∀ w w', R w w' → R' w w') (h : m.Leads C R Q w)
    (hok : ∀ a w', C.inv w' → R w w' → Q (.ok a) w' → (f a).Leads C R' P w')
    (herror : ∀ error w', R w w' → Q (.error error) w' → P (.error error) w') : (m >>= f).Leads C R' P w := fun s => by
  refine (h s).bind ?_ ?_
  · rintro a s' w' hi ⟨hr, ha⟩
    exact (hok a w' hi hr ha s').mono fun _ _ w'' _ hx => ⟨hR'.trans w w' w'' (hRR' w w' hr) hx.1, hx.2⟩
  · rintro error s' w' - ⟨hr, herr⟩
    exact ⟨hRR' w w' hr, herror error w' hr herr⟩

theorem Leads.bind (hR : Course C R) (h : m.Leads C R Q w)
    (hok : ∀ a w', C.inv w' → R w w' → Q (.ok a) w' → (f a).Leads C R P w')
    (herror : ∀ error w', R w w' → Q (.error error) w' → P (.error error) w') : (m >>= f).Leads C R P w :=
  h.bind_weaken hR (fun _ _ => id) hok herror

theorem Leads.tryCatch (hR : Course C R) {handle : ε → Act I σ ε α} (h : m.Leads C R Q w)
    (hok : ∀ a w', R w w' → Q (.ok a) w' → Q' (.ok a) w')
    (herror : ∀ error w', C.inv w' → R w w' → Q (.error error) w' → (handle error).Leads C R Q' w') :
    (tryCatch m handle).Leads C R Q' w := fun s => by
  refine (h s).tryCatch ?_ ?_
  · rintro a s' w' - ⟨hr, ha⟩
    exact ⟨hr, hok a w' hr ha⟩
  · rintro error s' w' hi ⟨hr, herr⟩
    exact (herror error w' hi hr herr s').mono fun _ _ w'' _ hx => ⟨hR.trans w w' w'' hr hx.1, hx.2⟩

/-- A fold whose steps may be taken wherever the others lead. -/
theorem Leads.foldlM (hR : Course C R) {g : β → α → Act I σ ε β}
    (h : ∀ b a w', R w w' → (g b a).Leads C R (fun _ _ => True) w') (hrefl : R w w) (l : List α) (b : β) :
    (l.foldlM g b).Leads C R (fun _ _ => True) w := by
  induction l generalizing b w with
  | nil => exact leads_pure hR fun _ _ => trivial
  | cons a l ih =>
    rw [List.foldlM_cons]
    refine (h b a w hrefl).bind hR (fun b' w' _ hr _ => ?_) fun _ _ _ _ => trivial
    exact ih (fun b a w'' hr' => h b a w'' (hR.trans w w' w'' hr hr')) (hR.rely w' w' (C.rely_refl w')) b'

end Leads
end Act
end AsymmetricCommittee
