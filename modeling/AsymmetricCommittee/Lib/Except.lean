import Mathlib.Data.List.Forall2

/-! Runs of `Except` programs: what a successful bind and a successful list traversal went through. -/

namespace Except
variable {ε α β γ : Type*}

theorem bind_eq_ok {x : Except ε α} {f : α → Except ε β} {b : β} :
    x.bind f = .ok b ↔ ∃ a, x = .ok a ∧ f a = .ok b := by
  cases x with
  | error e => exact ⟨nofun, fun ⟨_, h, _⟩ => nomatch h⟩
  | ok a => exact ⟨fun h => ⟨a, rfl, h⟩, fun ⟨_, h, hf⟩ => by cases h; exact hf⟩

theorem map_eq_ok {x : Except ε α} {f : α → β} {b : β} : x.map f = .ok b ↔ ∃ a, x = .ok a ∧ f a = b := by
  cases x with
  | error e => exact ⟨nofun, fun ⟨_, h, _⟩ => nomatch h⟩
  | ok a => exact ⟨fun h => ⟨a, rfl, by cases h; rfl⟩, fun ⟨_, h, hf⟩ => by cases h; exact congrArg Except.ok hf⟩

theorem exists_ok_of_any {x : Except ε α} {p : α → Bool} (h : x.toOption.any p = true) : ∃ a, x = .ok a ∧ p a = true := by
  cases x with
  | error e => cases h
  | ok a => exact ⟨a, rfl, h⟩

/-- A traversal succeeds with a list exactly when it succeeds item by item with that list's items. -/
theorem mapM_eq_ok {α β ε : Type} {f : α → Except ε β} {l : List α} {r : List β} :
    l.mapM f = .ok r ↔ List.Forall₂ (fun a b => f a = .ok b) l r := by
  induction l generalizing r with
  | nil =>
    rw [List.mapM_nil, List.forall₂_nil_left_iff]
    exact ⟨fun h => by cases h; rfl, fun h => by rw [h]; rfl⟩
  | cons a l ih =>
    rw [List.mapM_cons, List.forall₂_cons_left_iff]
    constructor
    · intro h
      obtain ⟨b, hb, h⟩ := bind_eq_ok.mp h
      obtain ⟨r', hr', h⟩ := bind_eq_ok.mp h
      cases h
      exact ⟨b, r', hb, ih.mp hr', rfl⟩
    · rintro ⟨b, r', hb, hr', rfl⟩
      exact bind_eq_ok.mpr ⟨b, hb, bind_eq_ok.mpr ⟨r', ih.mpr hr', rfl⟩⟩

theorem mapM_ok_of_forall {α β ε : Type} {f : α → Except ε β} {l : List α} (h : ∀ a ∈ l, ∃ b, f a = .ok b) :
    ∃ r, l.mapM f = .ok r := by
  induction l with
  | nil => exact ⟨[], rfl⟩
  | cons a l ih =>
    obtain ⟨b, hb⟩ := h a List.mem_cons_self
    obtain ⟨r, hr⟩ := ih fun x hx => h x (List.mem_cons_of_mem a hx)
    refine ⟨b :: r, mapM_eq_ok.mpr (.cons hb (mapM_eq_ok.mp hr))⟩

theorem mapM_congr {α β ε : Type} {f g : α → Except ε β} {l : List α} (h : ∀ a ∈ l, f a = g a) : l.mapM f = l.mapM g := by
  induction l with
  | nil => rfl
  | cons a l ih =>
    rw [List.mapM_cons, List.mapM_cons, h a List.mem_cons_self, ih fun x hx => h x (List.mem_cons_of_mem a hx)]

theorem forM_eq_ok {α ε : Type} {f : α → Except ε Unit} {l : List α} : l.forM f = .ok () ↔ ∀ a ∈ l, f a = .ok () := by
  induction l with
  | nil => exact ⟨fun _ => nofun, fun _ => rfl⟩
  | cons a l ih =>
    rw [List.forall_mem_cons, ← ih]
    constructor
    · intro h
      obtain ⟨u, hu, h⟩ := bind_eq_ok.mp h
      exact ⟨hu, h⟩
    · rintro ⟨hu, h⟩
      exact bind_eq_ok.mpr ⟨(), hu, h⟩

/-- A fold that keeps an invariant and does for each item something that lasts. -/
theorem foldlM_establishes {α β ε : Type} {f : β → α → Except ε β} {l : List α} {Inv : β → Prop}
    (Done : α → β → Prop)
    (hstep : ∀ a ∈ l, ∀ b b', Inv b → f b a = .ok b' → Inv b' ∧ Done a b' ∧ ∀ x, Done x b → Done x b') {b b' : β}
    (hinv : Inv b) (h : l.foldlM f b = .ok b') : Inv b' ∧ (∀ a ∈ l, Done a b') ∧ ∀ x, Done x b → Done x b' := by
  induction l generalizing b with
  | nil =>
    cases h
    exact ⟨hinv, nofun, fun _ hx => hx⟩
  | cons a l ih =>
    rw [List.foldlM_cons] at h
    obtain ⟨b₁, hb₁, h⟩ := bind_eq_ok.mp h
    obtain ⟨hinv₁, hdone, hkeep⟩ := hstep a List.mem_cons_self b b₁ hinv hb₁
    obtain ⟨hinv', hrest, hkeep'⟩ := ih (fun x hx => hstep x (List.mem_cons_of_mem a hx)) hinv₁ h
    exact ⟨hinv', List.forall_mem_cons.mpr ⟨hkeep' a hdone, hrest⟩, fun x hx => hkeep' x (hkeep x hx)⟩

end Except

/-- What stands left in a pairing stands opposite something on the right. -/
theorem Forall₂.exists_of_mem_left {α β : Type*} {R : α → β → Prop} {l : List α} {r : List β}
    (h : List.Forall₂ R l r) {a : α} (ha : a ∈ l) : ∃ b ∈ r, R a b := by
  induction h with
  | nil => cases ha
  | @cons x y l r hxy _ ih =>
    rcases List.mem_cons.mp ha with rfl | ha
    · exact ⟨y, List.mem_cons_self, hxy⟩
    · obtain ⟨b, hb, hab⟩ := ih ha
      exact ⟨b, List.mem_cons_of_mem y hb, hab⟩

theorem Forall₂.exists_of_mem_right {α β : Type*} {R : α → β → Prop} {l : List α} {r : List β}
    (h : List.Forall₂ R l r) {b : β} (hb : b ∈ r) : ∃ a ∈ l, R a b :=
  Forall₂.exists_of_mem_left h.flip hb

theorem Forall₂.map_eq {α β γ : Type*} {R : α → β → Prop} {l : List α} {r : List β} {f : α → γ} {g : β → γ}
    (h : List.Forall₂ R l r) (hfg : ∀ a b, R a b → f a = g b) : l.map f = r.map g := by
  induction h with
  | nil => rfl
  | cons hxy _ ih => rw [List.map_cons, List.map_cons, hfg _ _ hxy, ih]

theorem Forall₂.comp {α β γ : Type*} {R : α → β → Prop} {S : β → γ → Prop} {T : α → γ → Prop} {l : List α} {m : List β}
    {r : List γ} (hT : ∀ a b c, R a b → S b c → T a c) (h : List.Forall₂ R l m) (h' : List.Forall₂ S m r) :
    List.Forall₂ T l r := by
  induction h generalizing r with
  | nil =>
    cases h'
    exact .nil
  | cons hxy _ ih =>
    cases h' with
    | cons hyz h' => exact .cons (hT _ _ _ hxy hyz) (ih h')

theorem Forall₂.map_eq_of_mem {α β γ : Type*} {R : α → β → Prop} {l : List α} {r : List β} {f : α → γ} {g : β → γ}
    (h : List.Forall₂ R l r) (hfg : ∀ a ∈ l, ∀ b ∈ r, R a b → f a = g b) : l.map f = r.map g := by
  induction h with
  | nil => rfl
  | @cons x y l r hxy _ ih =>
    rw [List.map_cons, List.map_cons, hfg x List.mem_cons_self y List.mem_cons_self hxy,
      ih fun a ha b hb => hfg a (List.mem_cons_of_mem _ ha) b (List.mem_cons_of_mem _ hb)]

/-- Folds over lists whose items correspond keep what corresponding steps keep. -/
theorem Forall₂.foldl_rel {α β γ δ : Type*} {R : α → β → Prop} {S : γ → δ → Prop} {l : List α} {r : List β} {f : γ → α → γ}
    {g : δ → β → δ} (h : List.Forall₂ R l r) (hstep : ∀ a b c d, R a b → S c d → S (f c a) (g d b)) {c : γ} {d : δ}
    (hstart : S c d) : S (l.foldl f c) (r.foldl g d) := by
  induction h generalizing c d with
  | nil => exact hstart
  | cons hxy _ ih => exact ih (hstep _ _ _ _ hxy hstart)

theorem Forall₂.mapM_eq {α β γ ε : Type} {R : α → β → Prop} {l : List α} {r : List β} {f : α → Except ε γ} {g : β → Except ε γ}
    (h : List.Forall₂ R l r) (hfg : ∀ a b, R a b → f a = g b) : l.mapM f = r.mapM g := by
  induction h with
  | nil => rfl
  | cons hxy _ ih => rw [List.mapM_cons, List.mapM_cons, hfg _ _ hxy, ih]

/-- What a list keeps of corresponding results corresponds. -/
theorem Forall₂.filterMap_rel {α β γ : Type*} {S : β → γ → Prop} {l : List α} {f : α → Option β} {g : α → Option γ}
    (h : ∀ a ∈ l, Option.Rel S (f a) (g a)) : List.Forall₂ S (l.filterMap f) (l.filterMap g) := by
  induction l with
  | nil => exact .nil
  | cons a l ih =>
    obtain ⟨hhead, htail⟩ := List.forall_mem_cons.mp h
    rw [List.filterMap_cons, List.filterMap_cons]
    generalize f a = x at hhead
    generalize g a = y at hhead
    cases hhead with
    | none => exact ih htail
    | some hxy => exact .cons hxy (ih htail)
