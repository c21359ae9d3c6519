import Mathlib.Data.List.Forall2
import Mathlib.Logic.Relation

/-! Programs that call their surroundings. A program is a tree: a result, or a call and how the program goes on
    with each reply. `Meets` says what holds of a program whatever the others do between its calls and whatever
    it is replied; a pool runs any number of programs over one world, in every order, and may stop each of them
    anywhere. -/

namespace AsymmetricCommittee

/-- What a program may call, and what each call replies. -/
structure Interface where
  Call : Type
  Reply : Call → Type

inductive Program (I : Interface) (α : Type) where
  | done (a : α)
  | call (c : I.Call) (next : I.Reply c → Program I α)

/-- A call with its reply. -/
structure Event (I : Interface) where
  call : I.Call
  reply : I.Reply call

namespace Program
variable {I : Interface} {α β : Type}

def bind : Program I α → (α → Program I β) → Program I β
  | .done a, f => f a
  | .call c next, f => .call c fun r => (next r).bind f

instance : Monad (Program I) where
  pure := .done
  bind := bind

theorem bind_done (p : Program I α) : p.bind .done = p := by
  induction p with
  | done a => rfl
  | call c next ih => exact congrArg (Program.call c) (funext ih)

theorem bind_assoc {γ : Type} (p : Program I α) (f : α → Program I β) (g : β → Program I γ) :
    (p.bind f).bind g = p.bind fun a => (f a).bind g := by
  induction p with
  | done a => rfl
  | call c next ih => exact congrArg (Program.call c) (funext ih)

instance : LawfulMonad (Program I) :=
  LawfulMonad.mk' (Program I) bind_done (fun _ _ => rfl) bind_assoc

/-- The program without its result. -/
def void (p : Program I α) : Program I Unit := p.bind fun _ => .done ()

end Program

/-! ### What a program meets -/

/-- What one party knows of the world: an invariant, what the others may do between two of its calls, which
    calls it may make, and how a call is answered. -/
structure Contract (I : Interface) (W : Type) where
  inv : W → Prop
  rely : W → W → Prop
  allowed : I.Call → W → Prop
  answers : (c : I.Call) → W → I.Reply c → W → Prop
  rely_refl : ∀ w, rely w w
  rely_trans : ∀ w₁ w₂ w₃, rely w₁ w₂ → rely w₂ w₃ → rely w₁ w₃

namespace Contract
variable {I : Interface} {W : Type} (C : Contract I W)

/-- `P` holds now and whatever the others do next. -/
def Stays (P : W → Prop) (w : W) : Prop := ∀ w', C.rely w w' → C.inv w' → P w'

/-- The others cannot falsify `P`. -/
def Stable (P : W → Prop) : Prop := ∀ w w', C.rely w w' → C.inv w' → P w → P w'

/-- Neither the others nor the party's own calls falsify `P`. -/
structure Kept (P : W → Prop) : Prop where
  stable : C.Stable P
  call : ∀ c w r w', C.inv w → C.allowed c w → C.answers c w r w' → C.inv w' → P w → P w'

variable {C} {P : W → Prop} {w : W}

theorem Kept.forall₂ {α β : Type} {P : α → β → W → Prop} (h : ∀ a b, C.Kept (P a b)) (l : List α) (l' : List β) :
    C.Kept fun w => List.Forall₂ (fun a b => P a b w) l l' where
  stable w w' hr hi hw := hw.imp fun a b => (h a b).stable w w' hr hi
  call c w r w' hi hallowed hans hi' hw := hw.imp fun a b => (h a b).call c w r w' hi hallowed hans hi'

theorem Stable.stays (h : C.Stable P) (hw : P w) : C.Stays P w := fun w' hr hi => h w w' hr hi hw

end Contract

namespace Program
variable {I : Interface} {W α β : Type} {C : Contract I W}

/-- From a world on, every call is made where it is allowed, and a result satisfies `Q`. -/
def Meets (C : Contract I W) : Program I α → (α → W → Prop) → W → Prop
  | .done a, Q => C.Stays (Q a)
  | .call c next, Q => C.Stays fun w =>
      C.allowed c w ∧ ∀ r w', C.answers c w r w' → C.inv w' → (next r).Meets C Q w'

variable {p : Program I α} {f : α → Program I β} {Q Q' : α → W → Prop} {R : β → W → Prop} {w w' : W}

theorem Meets.rely (h : p.Meets C Q w) (hr : C.rely w w') : p.Meets C Q w' := by
  cases p with
  | done a => exact fun w'' hr' hi => h w'' (C.rely_trans _ _ _ hr hr') hi
  | call c next => exact fun w'' hr' hi => h w'' (C.rely_trans _ _ _ hr hr') hi

theorem Meets.of_later (h : ∀ w', C.rely w w' → C.inv w' → p.Meets C Q w') : p.Meets C Q w := by
  cases p with
  | done a => exact fun w' hr hi => h w' hr hi w' (C.rely_refl w') hi
  | call c next => exact fun w' hr hi => h w' hr hi w' (C.rely_refl w') hi

theorem Meets.mono (h : p.Meets C Q w) (hQ : ∀ a w, C.inv w → Q a w → Q' a w) : p.Meets C Q' w := by
  induction p generalizing w with
  | done a => exact fun w' hr hi => hQ a w' hi (h w' hr hi)
  | call c next ih =>
    intro w' hr hi
    obtain ⟨hallowed, hnext⟩ := h w' hr hi
    exact ⟨hallowed, fun r w'' hans hi' => ih r (hnext r w'' hans hi')⟩

theorem Meets.bind_stays (h : p.Meets C Q w) (hf : ∀ a w, C.inv w → C.Stays (Q a) w → (f a).Meets C R w) :
    (p.bind f).Meets C R w := by
  induction p generalizing w with
  | done a => exact Meets.of_later fun w' hr hi => hf a w' hi fun w'' hr' hi' => h w'' (C.rely_trans _ _ _ hr hr') hi'
  | call c next ih =>
    intro w' hr hi
    obtain ⟨hallowed, hnext⟩ := h w' hr hi
    exact ⟨hallowed, fun r w'' hans hi' => ih r (hnext r w'' hans hi')⟩

theorem Meets.bind (h : p.Meets C Q w) (hf : ∀ a w, C.inv w → Q a w → (f a).Meets C R w) : (p.bind f).Meets C R w :=
  h.bind_stays fun a w hi hQ => hf a w hi (hQ w (C.rely_refl w) hi)

theorem Meets.frame {P : W → Prop} (h : p.Meets C Q w) (hkept : C.Kept P) (hw : P w) :
    p.Meets C (fun a w => Q a w ∧ P w) w := by
  induction p generalizing w with
  | done a => exact fun w' hr hi => ⟨h w' hr hi, hkept.stable w w' hr hi hw⟩
  | call c next ih =>
    intro w' hr hi
    obtain ⟨hallowed, hnext⟩ := h w' hr hi
    have hw' := hkept.stable w w' hr hi hw
    exact ⟨hallowed, fun r w'' hans hi' => ih r (hnext r w'' hans hi') (hkept.call c w' r w'' hi hallowed hans hi' hw')⟩

theorem Meets.and (h : p.Meets C Q w) (h' : p.Meets C Q' w) : p.Meets C (fun a w => Q a w ∧ Q' a w) w := by
  induction p generalizing w with
  | done a => exact fun w' hr hi => ⟨h w' hr hi, h' w' hr hi⟩
  | call c next ih =>
    intro w' hr hi
    obtain ⟨hallowed, hnext⟩ := h w' hr hi
    exact ⟨hallowed, fun r w'' hans hi' => ih r (hnext r w'' hans hi') ((h' w' hr hi).2 r w'' hans hi')⟩

/-- What is met under a further invariant, which the others and the calls that are then allowed keep, is met. -/
theorem Meets.under {D : Contract I W} {J : W → Prop} (h : p.Meets D Q w) (hJ : J w) (hrely : ∀ w w', C.rely w w' → D.rely w w')
    (hinv : ∀ w, C.inv w → J w → D.inv w) (hstable : C.Stable J)
    (hallowed : ∀ c w, C.inv w → J w → D.allowed c w → C.allowed c w)
    (hcall : ∀ c w r w', C.inv w → J w → D.allowed c w → C.answers c w r w' → C.inv w' → D.answers c w r w' ∧ J w') :
    p.Meets C (fun a w => Q a w ∧ J w) w := by
  induction p generalizing w with
  | done a =>
    intro w' hr hi
    have hJ' := hstable w w' hr hi hJ
    exact ⟨h w' (hrely w w' hr) (hinv w' hi hJ'), hJ'⟩
  | call c next ih =>
    intro w' hr hi
    have hJ' := hstable w w' hr hi hJ
    obtain ⟨hok, hnext⟩ := h w' (hrely w w' hr) (hinv w' hi hJ')
    refine ⟨hallowed c w' hi hJ' hok, fun r w'' hans hi' => ?_⟩
    obtain ⟨hans', hJ''⟩ := hcall c w' r w'' hi hJ' hok hans hi'
    exact ih r (hnext r w'' hans' (hinv w'' hi' hJ'')) hJ''

theorem Meets.void (h : p.Meets C Q w) : p.void.Meets C (fun _ _ => True) w :=
  h.bind fun _ _ _ _ _ _ _ => trivial

/-- Every call of the program is one of these. -/
def Uses (ok : I.Call → Prop) : Program I α → Prop
  | .done _ => True
  | .call c next => ok c ∧ ∀ r, (next r).Uses ok

theorem Uses.bind {ok : I.Call → Prop} (h : p.Uses ok) (hf : ∀ a, (f a).Uses ok) : (p.bind f).Uses ok := by
  induction p with
  | done a => exact hf a
  | call c next ih => exact ⟨h.1, fun r => ih r (h.2 r)⟩

theorem Uses.mono {ok ok' : I.Call → Prop} (h : p.Uses ok) (hok : ∀ c, ok c → ok' c) : p.Uses ok' := by
  induction p with
  | done a => trivial
  | call c next ih => exact ⟨hok c h.1, fun r => ih r (h.2 r)⟩

/-- Calls that are always allowed and keep a fact keep it through a whole program. -/
theorem Uses.meets {ok : I.Call → Prop} (h : p.Uses ok) {P : W → Prop} (hstable : C.Stable P)
    (hok : ∀ c w, ok c → C.inv w → P w → C.allowed c w ∧ ∀ r w', C.answers c w r w' → P w') (hw : P w) :
    p.Meets C (fun _ => P) w := by
  induction p generalizing w with
  | done a => exact hstable.stays hw
  | call c next ih =>
    intro w' hr hi
    obtain ⟨hallowed, hnext⟩ := hok c w' h.1 hi (hstable w w' hr hi hw)
    exact ⟨hallowed, fun r w'' hans _ => ih r (h.2 r) (hnext r w'' hans)⟩

/-- What the calls of a program keep is not lost. -/
theorem Uses.frame {ok : I.Call → Prop} (hu : p.Uses ok) (h : p.Meets C Q w) {P : W → Prop} (hstable : C.Stable P)
    (hok : ∀ c w r w', ok c → C.answers c w r w' → P w → P w') (hw : P w) : p.Meets C (fun a w => Q a w ∧ P w) w := by
  induction p generalizing w with
  | done a => exact fun w' hr hi => ⟨h w' hr hi, hstable w w' hr hi hw⟩
  | call c next ih =>
    intro w' hr hi
    obtain ⟨hallowed, hnext⟩ := h w' hr hi
    have hw' := hstable w w' hr hi hw
    exact ⟨hallowed, fun r w'' hans hi' => ih r (hu.2 r) (hnext r w'' hans hi') (hok c w' r w'' hu.1 hans hw')⟩

end Program

/-! ### Steps with a state and exceptions -/

/-- Steps of a party with a state of its own, which survives an exception. -/
abbrev Act (I : Interface) (σ ε α : Type) : Type := ExceptT ε (StateT σ (Program I)) α

namespace Act
variable {I : Interface} {W σ τ ε α β : Type} {C : Contract I W}

/-- The program of the steps from a state. -/
def start (m : Act I σ ε α) (s : σ) : Program I (Except ε α × σ) := m s

/-- One call. -/
def ask (c : I.Call) : Act I σ ε (I.Reply c) := fun s => .call c fun r => .done (.ok r, s)

/-- Run steps on a state of their own and catch what they raise. -/
def isolated (m : Act I τ ε α) (t : τ) : Act I σ ε (Except ε α × τ) := fun s =>
  (m.start t).bind fun x => .done (.ok x, s)

/-- Run steps on a part of the state. -/
def zoom (part : σ → τ) (put : σ → τ → σ) (m : Act I τ ε α) : Act I σ ε α := fun s =>
  (m.start (part s)).bind fun x => .done (x.1, put s x.2)

/-- From a state and a world on, every call is allowed, and the result, or the exception, and the state then
    satisfy `Q`. -/
def Meets (C : Contract I W) (m : Act I σ ε α) (s : σ) (Q : Except ε α → σ → W → Prop) (w : W) : Prop :=
  (m.start s).Meets C (fun x => Q x.1 x.2) w

variable {m : Act I σ ε α} {f : α → Act I σ ε β} {s : σ} {w : W} {Q Q' : Except ε α → σ → W → Prop}
  {R : Except ε β → σ → W → Prop}

theorem Meets.mono (h : m.Meets C s Q w) (hQ : ∀ x s w, C.inv w → Q x s w → Q' x s w) : m.Meets C s Q' w :=
  Program.Meets.mono h fun x w hi => hQ x.1 x.2 w hi

theorem Meets.of_later (h : ∀ w', C.rely w w' → C.inv w' → m.Meets C s Q w') : m.Meets C s Q w :=
  Program.Meets.of_later h

theorem meets_pure {a : α} : Meets C (pure a : Act I σ ε α) s Q w ↔ C.Stays (Q (.ok a) s) w := Iff.rfl

theorem meets_throw {e : ε} : Meets C (throw e : Act I σ ε α) s Q w ↔ C.Stays (Q (.error e) s) w := Iff.rfl

theorem meets_get {Q : Except ε σ → σ → W → Prop} :
    Meets C (get : Act I σ ε σ) s Q w ↔ C.Stays (Q (.ok s) s) w := Iff.rfl

theorem meets_modify {g : σ → σ} {Q : Except ε Unit → σ → W → Prop} :
    Meets C (modify g : Act I σ ε Unit) s Q w ↔ C.Stays (Q (.ok ()) (g s)) w := Iff.rfl

theorem meets_ask {c : I.Call} {Q : Except ε (I.Reply c) → σ → W → Prop} :
    Meets C (ask c : Act I σ ε (I.Reply c)) s Q w ↔ C.Stays (fun w => C.allowed c w ∧
      ∀ r w', C.answers c w r w' → C.inv w' → C.Stays (Q (.ok r) s) w') w := Iff.rfl

theorem Meets.bind (h : m.Meets C s Q w) (hok : ∀ a s w, C.inv w → Q (.ok a) s w → (f a).Meets C s R w)
    (herror : ∀ e s w, C.inv w → Q (.error e) s w → R (.error e) s w) : (m >>= f).Meets C s R w := by
  refine Program.Meets.bind_stays h ?_
  rintro ⟨x, s'⟩ w hi hx
  cases x with
  | ok a => exact hok a s' w hi (hx w (C.rely_refl w) hi)
  | error e => exact fun w' hr hi' => herror e s' w' hi' (hx w' hr hi')

theorem Meets.tryCatch {handle : ε → Act I σ ε α} (h : m.Meets C s Q w)
    (hok : ∀ a s w, C.inv w → Q (.ok a) s w → Q' (.ok a) s w)
    (herror : ∀ e s w, C.inv w → Q (.error e) s w → (handle e).Meets C s Q' w) : (tryCatch m handle).Meets C s Q' w := by
  refine Program.Meets.bind_stays h ?_
  rintro ⟨x, s'⟩ w hi hx
  cases x with
  | ok a => exact fun w' hr hi' => hok a s' w' hi' (hx w' hr hi')
  | error e => exact herror e s' w hi (hx w (C.rely_refl w) hi)

theorem Meets.isolated {n : Act I τ ε α} {t : τ} {Q : Except ε α → τ → W → Prop} (h : n.Meets C t Q w) :
    (Act.isolated n t : Act I σ ε (Except ε α × τ)).Meets C s
      (fun x s' w => s' = s ∧ ∃ y, x = .ok y ∧ Q y.1 y.2 w) w := by
  refine Program.Meets.bind_stays h ?_
  rintro y w hi hy w' hr hi'
  exact ⟨rfl, y, rfl, hy w' hr hi'⟩

theorem Meets.zoom {n : Act I τ ε α} {part : σ → τ} {put : σ → τ → σ} {Q : Except ε α → τ → W → Prop}
    (h : n.Meets C (part s) Q w) (hQ : ∀ x t w, C.inv w → Q x t w → Q' x (put s t) w) :
    (Act.zoom part put n).Meets C s Q' w := by
  refine Program.Meets.bind_stays h ?_
  rintro ⟨x, t⟩ w hi hx w' hr hi'
  exact hQ x t w' hi' (hx w' hr hi')

theorem Meets.frame {P : W → Prop} (h : m.Meets C s Q w) (hkept : C.Kept P) (hw : P w) :
    m.Meets C s (fun x s w => Q x s w ∧ P w) w :=
  Program.Meets.frame h hkept hw

/-- A call and what follows it. -/
theorem meets_ask_bind {c : I.Call} {f : I.Reply c → Act I σ ε β} : (ask c >>= f).Meets C s R w ↔
    C.Stays (fun w => C.allowed c w ∧ ∀ r w', C.answers c w r w' → C.inv w' → (f r).Meets C s R w') w := Iff.rfl

theorem meets_get_bind {f : σ → Act I σ ε β} : (get >>= f).Meets C s R w ↔ (f s).Meets C s R w := Iff.rfl

theorem meets_modify_bind {g : σ → σ} {f : Unit → Act I σ ε β} :
    (modify g >>= f).Meets C s R w ↔ (f ()).Meets C (g s) R w := Iff.rfl

theorem meets_pure_bind {a : α} : (pure a >>= f).Meets C s R w ↔ (f a).Meets C s R w := Iff.rfl

/-- Every call of the steps is one of these. -/
def Uses (ok : I.Call → Prop) (m : Act I σ ε α) : Prop := ∀ s, (m.start s).Uses ok

section Uses
variable {ok : I.Call → Prop}

theorem uses_pure {a : α} : Uses ok (pure a : Act I σ ε α) := fun _ => trivial

theorem uses_throw {e : ε} : Uses ok (throw e : Act I σ ε α) := fun _ => trivial

theorem uses_get : Uses ok (get : Act I σ ε σ) := fun _ => trivial

theorem uses_modify {g : σ → σ} : Uses ok (modify g : Act I σ ε Unit) := fun _ => trivial

theorem uses_ask {c : I.Call} (h : ok c) : Uses ok (ask c : Act I σ ε (I.Reply c)) := fun _ => ⟨h, fun _ => trivial⟩

theorem Uses.bind (h : Uses ok m) (hf : ∀ a, Uses ok (f a)) : Uses ok (m >>= f) := fun s =>
  Program.Uses.bind (h s) fun x => match x with
    | (.ok a, s) => hf a s
    | (.error _, _) => trivial

theorem Uses.mono {ok' : I.Call → Prop} (h : Uses ok m) (hok : ∀ c, ok c → ok' c) : Uses ok' m := fun s =>
  Program.Uses.mono (h s) hok

theorem Uses.tryCatch {handle : ε → Act I σ ε α} (h : Uses ok m) (hh : ∀ e, Uses ok (handle e)) :
    Uses ok (tryCatch m handle) := fun s =>
  Program.Uses.bind (h s) fun x => match x with
    | (.ok _, _) => trivial
    | (.error e, s) => hh e s

theorem Uses.isolated {n : Act I τ ε α} {t : τ} (h : Uses ok n) : Uses ok (Act.isolated n t : Act I σ ε (Except ε α × τ)) :=
  fun _ => Program.Uses.bind (h t) fun _ => trivial

theorem Uses.zoom {n : Act I τ ε α} {part : σ → τ} {put : σ → τ → σ} (h : Uses ok n) : Uses ok (Act.zoom part put n) :=
  fun s => Program.Uses.bind (h (part s)) fun _ => trivial

theorem Uses.foldlM {f : β → α → Act I σ ε β} {l : List α} (h : ∀ b, ∀ a ∈ l, Uses ok (f b a)) (b : β) :
    Uses ok (l.foldlM f b) := by
  induction l generalizing b with
  | nil => exact uses_pure
  | cons a l ih =>
    rw [List.foldlM_cons]
    exact (h b a List.mem_cons_self).bind fun b => ih (fun b a ha => h b a (List.mem_cons_of_mem _ ha)) b

theorem Uses.mapM {f : α → Act I σ ε β} (h : ∀ a, Uses ok (f a)) (l : List α) : Uses ok (l.mapM f) := by
  induction l with
  | nil => exact uses_pure
  | cons a l ih =>
    rw [List.mapM_cons]
    exact (h a).bind fun b => ih.bind fun bs => uses_pure

/-- What the calls of the steps keep is not lost. -/
theorem Uses.frame (hu : Uses ok m) (h : m.Meets C s Q w) {P : W → Prop} (hstable : C.Stable P)
    (hok : ∀ c w r w', ok c → C.answers c w r w' → P w → P w') (hw : P w) : m.Meets C s (fun x s w => Q x s w ∧ P w) w :=
  Program.Uses.frame (hu s) h hstable hok hw

end Uses

/-- The steps may be taken wherever `P` holds of the state and the world, and keep it. -/
def Keeps (C : Contract I W) (P : σ → W → Prop) (m : Act I σ ε α) : Prop :=
  ∀ s w, C.inv w → P s w → m.Meets C s (fun _ => P) w

section Keeps
variable {P : σ → W → Prop} (hP : ∀ s, C.Stable (P s))
include hP

theorem keeps_pure (a : α) : Keeps C P (pure a : Act I σ ε α) := fun s _ _ h => (hP s).stays h

theorem keeps_throw (e : ε) : Keeps C P (throw e : Act I σ ε α) := fun s _ _ h => (hP s).stays h

theorem keeps_get : Keeps C P (get : Act I σ ε σ) := fun s _ _ h => (hP s).stays h

theorem keeps_modify {g : σ → σ} (hg : ∀ s w, P s w → P (g s) w) : Keeps C P (modify g : Act I σ ε Unit) :=
  fun s w _ h => (hP (g s)).stays (hg s w h)

theorem keeps_ask {c : I.Call} (hc : ∀ s w, C.inv w → P s w → C.allowed c w ∧ ∀ r w', C.answers c w r w' → P s w') :
    Keeps C P (ask c : Act I σ ε (I.Reply c)) := by
  intro s w _ h w₁ hr hi
  obtain ⟨hallowed, hans⟩ := hc s w₁ hi (hP s w w₁ hr hi h)
  exact ⟨hallowed, fun r w₂ ha _ => (hP s).stays (hans r w₂ ha)⟩

omit hP in
theorem Keeps.bind (h : Keeps C P m) (hf : ∀ a, Keeps C P (f a)) : Keeps C P (m >>= f) := fun s w hw hs =>
  (h s w hw hs).bind (fun a s w hw hs => hf a s w hw hs) fun _ _ _ _ h => h

omit hP in
theorem Keeps.tryCatch {handle : ε → Act I σ ε α} (h : Keeps C P m) (hh : ∀ e, Keeps C P (handle e)) :
    Keeps C P (tryCatch m handle) := fun s w hw hs =>
  (h s w hw hs).tryCatch (fun _ _ _ _ h => h) fun e s w hw hs => hh e s w hw hs

theorem Keeps.mapM {g : α → Act I σ ε β} (h : ∀ a, Keeps C P (g a)) (l : List α) : Keeps C P (l.mapM g) := by
  induction l with
  | nil => exact keeps_pure hP []
  | cons a l ih =>
    rw [List.mapM_cons]
    exact (h a).bind fun b => ih.bind fun bs => keeps_pure hP (b :: bs)

/-- Steps on a state of their own keep what their calls keep. -/
theorem Keeps.isolated {n : Act I τ ε α} {t : τ} {ok : I.Call → Prop} (hu : n.Uses ok)
    (hok : ∀ c s w, ok c → C.inv w → P s w → C.allowed c w ∧ ∀ r w', C.answers c w r w' → P s w') :
    Keeps C P (Act.isolated n t : Act I σ ε (Except ε α × τ)) := by
  intro s w hw h
  refine Program.Meets.bind_stays (Program.Uses.meets (hu t) (hP s) (fun c w hc hi hp => hok c s w hc hi hp) h) ?_
  exact fun x w₁ hi₁ hx w₂ hr hi₂ => hx w₂ hr hi₂

end Keeps

/-- What holds of a result, and of the state that an exception leaves. -/
def post (Q : α → σ → W → Prop) (E : σ → W → Prop) : Except ε α → σ → W → Prop
  | .ok a => Q a
  | .error _ => E

/-- A traversal, beside a list of indices: what an item came to is not lost while the next are visited, and the state
    moves up an order. -/
theorem Meets.mapM {ι : Type} {f : α → Act I σ ε β} (le : σ → σ → Prop) {P E : σ → W → Prop}
    {A : ι → α → σ → W → Prop} {B : ι → β → σ → W → Prop} (hrefl : ∀ s, le s s) (htrans : ∀ s₁ s₂ s₃, le s₁ s₂ → le s₂ s₃ → le s₁ s₃)
    (hP : ∀ s, C.Stable (P s)) (hA : ∀ i a s, C.Kept (A i a s)) (hB : ∀ i b s, C.Kept (B i b s))
    (hAle : ∀ i a s s' w, le s s' → A i a s w → A i a s' w) (hBle : ∀ i b s s' w, le s s' → B i b s w → B i b s' w)
    (hf : ∀ i a s w, C.inv w → P s w → A i a s w →
      (f a).Meets C s (post (fun b s' w' => le s s' ∧ P s' w' ∧ B i b s' w') E) w)
    {is : List ι} {l : List α} (hw : C.inv w) (hs : P s w) (hl : List.Forall₂ (fun i a => A i a s w) is l) :
    (l.mapM f).Meets C s
      (post (fun bs s' w' => le s s' ∧ P s' w' ∧ List.Forall₂ (fun i b => B i b s' w') is bs) E) w := by
  induction is generalizing s w l with
  | nil =>
    cases hl
    rw [List.mapM_nil]
    exact fun w' hr hi => ⟨hrefl s, hP s w w' hr hi hs, .nil⟩
  | cons i is ih =>
    obtain ⟨a, l, ha, hrest, rfl⟩ := List.forall₂_cons_left_iff.mp hl
    rw [List.mapM_cons]
    have hfirst := (hf i a s w hw hs ha).frame (Contract.Kept.forall₂ (fun i a => hA i a s) is l) hrest
    refine hfirst.bind ?_ ?_
    · rintro b s₁ w₁ hw₁ ⟨⟨hle, hs₁, hb⟩, hl₁⟩
      have hl₁' := hl₁.imp fun i a h => hAle i a s s₁ w₁ hle h
      refine ((ih hw₁ hs₁ hl₁').frame (hB i b s₁) hb).bind ?_ ?_
      · rintro bs s₂ w₂ hw₂ ⟨⟨hle', hs₂, hbs⟩, hb₂⟩ w₃ hr hi
        refine ⟨htrans s s₁ s₂ hle hle', hP s₂ w₂ w₃ hr hi hs₂, .cons ?_ ?_⟩
        · exact hBle i b s₁ s₂ w₃ hle' ((hB i b s₁).stable w₂ w₃ hr hi hb₂)
        · exact hbs.imp fun i b h => (hB i b s₂).stable w₂ w₃ hr hi h
      · rintro e s₂ w₂ hw₂ ⟨he, -⟩
        exact he
    · rintro e s₁ w₁ hw₁ ⟨he, -⟩
      exact he

/-- A traversal whose steps leave the state. -/
theorem Meets.mapM_fixed {f : α → Act I σ ε β} {B : α → β → W → Prop} {E : σ → W → Prop} (hB : ∀ a b, C.Kept (B a b))
    (hf : ∀ a w, C.inv w → (f a).Meets C s (post (fun b s' w' => s' = s ∧ B a b w') E) w) (l : List α) (hw : C.inv w) :
    (l.mapM f).Meets C s (post (fun bs s' w' => s' = s ∧ List.Forall₂ (fun a b => B a b w') l bs) E) w := by
  have hsame : List.Forall₂ (fun a a' => a = a') l l := List.forall₂_same.mpr fun _ _ => rfl
  refine (Meets.mapM (E := E) (P := fun s' _ => s' = s) (A := fun a a' _ _ => a = a') (B := fun a b _ => B a b)
    (fun s₁ s₂ => s₂ = s₁) (fun _ => rfl) (fun _ _ _ h h' => h'.trans h) (fun _ _ _ _ _ h => h)
    (fun _ _ _ => ⟨fun _ _ _ _ h => h, fun _ _ _ _ _ _ _ _ h => h⟩) (fun a b _ => hB a b) (fun _ _ _ _ _ _ h => h)
    (fun _ _ _ _ _ _ h => h) ?_ hw rfl hsame).mono ?_
  · rintro a - s' w hw rfl rfl
    refine (hf a w hw).mono ?_
    rintro (e | b) s'' w' - hx
    · exact hx
    · exact ⟨hx.1, hx.1, hx.2⟩
  · rintro (e | bs) s' w' - hx
    · exact hx
    · exact ⟨hx.1, hx.2.2⟩

/-- A fold keeps a fact about what it has so far and what it has left. -/
theorem Meets.foldlM {f : β → α → Act I σ ε β} {P : β → List α → σ → W → Prop} {E : σ → W → Prop}
    (hP : ∀ b l s, C.Stable (P b l s))
    (hf : ∀ b a l s w, C.inv w → P b (a :: l) s w → (f b a).Meets C s (post (fun b => P b l) E) w)
    {b : β} {l : List α} (hs : P b l s w) : (l.foldlM f b).Meets C s (post (fun b => P b []) E) w := by
  induction l generalizing b s w with
  | nil => exact (hP b [] s).stays hs
  | cons a l ih =>
    rw [List.foldlM_cons]
    refine Meets.of_later fun w' hr hi => ?_
    refine (hf b a l s w' hi (hP b (a :: l) s w w' hr hi hs)).bind ?_ fun e s w _ he => he
    exact fun b s w _ hb => ih hb

end Act

/-! ### Runs without interference -/

section Exec
variable {I : Interface} {W : Type} (answer : (c : I.Call) → W → I.Reply c × W)

/-- The result, and the world then, when no one else acts. -/
def Program.exec {α : Type} : Program I α → W → α × W
  | .done a, w => (a, w)
  | .call c next, w => (next (answer c w).1).exec (answer c w).2

/-- The world that the program leaves when it is stopped after a number of calls. -/
def Program.after {α : Type} : Nat → Program I α → W → W
  | 0, _, w => w
  | _ + 1, .done _, w => w
  | n + 1, .call c next, w => Program.after n (next (answer c w).1) (answer c w).2

/-- The program that is left then. -/
def Program.left {α : Type} : Nat → Program I α → W → Program I α
  | 0, p, _ => p
  | _ + 1, .done a, _ => .done a
  | n + 1, .call c next, w => Program.left n (next (answer c w).1) (answer c w).2

/-- The calls of that run with their replies. -/
def Program.events {α : Type} : Program I α → W → List (Event I)
  | .done _, _ => []
  | .call c next, w => ⟨c, (answer c w).1⟩ :: (next (answer c w).1).events (answer c w).2

theorem Program.exec_bind {α β : Type} (p : Program I α) (f : α → Program I β) (w : W) :
    (p.bind f).exec answer w = (f (p.exec answer w).1).exec answer (p.exec answer w).2 := by
  induction p generalizing w with
  | done a => rfl
  | call c next ih => exact ih (answer c w).1 (answer c w).2

theorem Program.events_bind {α β : Type} (p : Program I α) (f : α → Program I β) (w : W) :
    (p.bind f).events answer w =
      p.events answer w ++ (f (p.exec answer w).1).events answer (p.exec answer w).2 := by
  induction p generalizing w with
  | done a => rfl
  | call c next ih => exact congrArg (List.cons _) (ih (answer c w).1 (answer c w).2)

/-- The contract of a party that is alone with such answers. -/
def Contract.alone : Contract I W where
  inv _ := True
  rely w w' := w' = w
  allowed _ _ := True
  answers c w r w' := answer c w = (r, w')
  rely_refl _ := rfl
  rely_trans _ _ _ h h' := h'.trans h

variable {answer} in
theorem Contract.stable_alone (P : W → Prop) : (Contract.alone answer).Stable P := by
  intro w w' hr _ h
  obtain rfl : w' = w := hr
  exact h

variable {answer} in
/-- What is met alone is what holds of the run. -/
theorem Program.meets_alone {α : Type} {p : Program I α} {Q : α → W → Prop} {w : W} :
    p.Meets (Contract.alone answer) Q w ↔ Q (p.exec answer w).1 (p.exec answer w).2 := by
  induction p generalizing w with
  | done a =>
    refine ⟨fun h => h w rfl trivial, fun h w' hr _ => ?_⟩
    obtain rfl : w' = w := hr
    exact h
  | call c next ih =>
    constructor
    · intro h
      exact (ih (answer c w).1).mp ((h w rfl trivial).2 (answer c w).1 (answer c w).2 rfl trivial)
    · intro h w' hr _
      obtain rfl : w' = w := hr
      refine ⟨trivial, fun r w₁ hans _ => ?_⟩
      obtain ⟨rfl, rfl⟩ := Prod.mk.inj (hans : answer c w' = (r, w₁))
      exact (ih _).mpr h

variable {answer} in
/-- What the calls of a program keep is kept by its run. -/
theorem Program.Uses.exec {α : Type} {p : Program I α} {ok : I.Call → Prop} (h : p.Uses ok) {P : W → Prop}
    (hok : ∀ c w, ok c → P w → P (answer c w).2) {w : W} (hw : P w) : P (p.exec answer w).2 := by
  induction p generalizing w with
  | done a => exact hw
  | call c next ih => exact ih _ (h.2 _) (hok c w h.1 hw)

namespace Act
variable {σ ε α β : Type}

/-- The result or the exception, the state and the world then, when no one else acts. -/
def exec (m : Act I σ ε α) (s : σ) (w : W) : (Except ε α × σ) × W := (m.start s).exec answer w

/-- The calls of that run with their replies. -/
def events (m : Act I σ ε α) (s : σ) (w : W) : List (Event I) := (m.start s).events answer w

@[simp] theorem exec_pure (a : α) (s : σ) (w : W) : (pure a : Act I σ ε α).exec answer s w = ((.ok a, s), w) := rfl

@[simp] theorem exec_throw (e : ε) (s : σ) (w : W) :
    (throw e : Act I σ ε α).exec answer s w = ((.error e, s), w) := rfl

theorem exec_ask (c : I.Call) (s : σ) (w : W) :
    (ask c : Act I σ ε (I.Reply c)).exec answer s w = ((.ok (answer c w).1, s), (answer c w).2) := rfl

/-- A call goes on with its reply. -/
theorem exec_ask_bind (c : I.Call) (f : I.Reply c → Act I σ ε β) (s : σ) (w : W) :
    (ask c >>= f).exec answer s w = (f (answer c w).1).exec answer s (answer c w).2 := rfl

theorem events_ask_bind (c : I.Call) (f : I.Reply c → Act I σ ε β) (s : σ) (w : W) :
    (ask c >>= f).events answer s w = ⟨c, (answer c w).1⟩ :: (f (answer c w).1).events answer s (answer c w).2 := rfl

/-- How the steps of a program go on after what it returned or raised. -/
theorem start_bind (m : Act I σ ε α) (f : α → Act I σ ε β) (s : σ) :
    (m >>= f).start s = (m.start s).bind fun x => match x with
      | (.ok a, s) => (f a).start s
      | (.error e, s) => .done (.error e, s) := by
  refine congrArg (m.start s).bind (funext ?_)
  rintro ⟨e | a, s⟩
  · rfl
  · rfl

theorem start_tryCatch (m : Act I σ ε α) (handle : ε → Act I σ ε α) (s : σ) :
    (tryCatch m handle).start s = (m.start s).bind fun x => match x with
      | (.ok a, s) => .done (.ok a, s)
      | (.error e, s) => (handle e).start s := by
  refine congrArg (m.start s).bind (funext ?_)
  rintro ⟨e | a, s⟩
  · rfl
  · rfl

theorem exec_bind (m : Act I σ ε α) (f : α → Act I σ ε β) (s : σ) (w : W) :
    (m >>= f).exec answer s w =
      match m.exec answer s w with
      | ((.ok a, s), w) => (f a).exec answer s w
      | ((.error e, s), w) => ((.error e, s), w) := by
  rw [exec, start_bind, Program.exec_bind, exec]
  rcases (m.start s).exec answer w with ⟨⟨e | a, s'⟩, w'⟩
  · rfl
  · rfl

theorem events_bind (m : Act I σ ε α) (f : α → Act I σ ε β) (s : σ) (w : W) :
    (m >>= f).events answer s w = m.events answer s w ++
      match m.exec answer s w with
      | ((.ok a, s), w) => (f a).events answer s w
      | ((.error _, _), _) => [] := by
  rw [events, start_bind, Program.events_bind, exec]
  rcases (m.start s).exec answer w with ⟨⟨e | a, s'⟩, w'⟩
  · rfl
  · rfl

theorem exec_tryCatch (m : Act I σ ε α) (handle : ε → Act I σ ε α) (s : σ) (w : W) :
    (tryCatch m handle).exec answer s w =
      match m.exec answer s w with
      | ((.ok a, s), w) => ((.ok a, s), w)
      | ((.error e, s), w) => (handle e).exec answer s w := by
  rw [exec, start_tryCatch, Program.exec_bind, exec]
  rcases (m.start s).exec answer w with ⟨⟨e | a, s'⟩, w'⟩
  · rfl
  · rfl

theorem events_tryCatch (m : Act I σ ε α) (handle : ε → Act I σ ε α) (s : σ) (w : W) :
    (tryCatch m handle).events answer s w = m.events answer s w ++
      match m.exec answer s w with
      | ((.ok _, _), _) => []
      | ((.error e, s), w) => (handle e).events answer s w := by
  rw [events, start_tryCatch, Program.events_bind, exec]
  rcases (m.start s).exec answer w with ⟨⟨e | a, s'⟩, w'⟩
  · rfl
  · rfl

variable {answer} {m : Act I σ ε α} {f : α → Act I σ ε β} {s s' : σ} {w w' : W}

theorem meets_alone {Q : Except ε α → σ → W → Prop} : m.Meets (Contract.alone answer) s Q w ↔
    Q (m.exec answer s w).1.1 (m.exec answer s w).1.2 (m.exec answer s w).2 := Program.meets_alone

theorem Uses.exec {ok : I.Call → Prop} (h : Uses ok m) {P : W → Prop} (hok : ∀ c w, ok c → P w → P (answer c w).2)
    (s : σ) (hw : P w) : P (m.exec answer s w).2 := Program.Uses.exec (h s) hok hw

theorem exec_bind_ok {a : α} (h : m.exec answer s w = ((.ok a, s'), w')) :
    (m >>= f).exec answer s w = (f a).exec answer s' w' := by rw [exec_bind, h]

theorem exec_bind_error {e : ε} (h : m.exec answer s w = ((.error e, s'), w')) :
    (m >>= f).exec answer s w = ((.error e, s'), w') := by rw [exec_bind, h]

theorem exec_eq_ok {b : β} : (m >>= f).exec answer s w = ((.ok b, s'), w') ↔
    ∃ a s₁ w₁, m.exec answer s w = ((.ok a, s₁), w₁) ∧ (f a).exec answer s₁ w₁ = ((.ok b, s'), w') := by
  rw [exec_bind]
  rcases m.exec answer s w with ⟨⟨e | a, s₁⟩, w₁⟩
  · simp
  · simp

/-! ### What ends a run -/

variable (answer) in
/-- From a state and a world on, the steps end with an exception of a kind exactly when a call fails. -/
def EndedBy (fails : Event I → Prop) (kind : ε → Prop) (m : Act I σ ε α) (s : σ) (w : W) : Prop :=
  (∃ e, (m.exec answer s w).1.1 = .error e ∧ kind e) ↔ ∃ event ∈ m.events answer s w, fails event

variable {fails : Event I → Prop} {kind : ε → Prop}

theorem endedBy_pure (a : α) (s : σ) (w : W) : EndedBy answer fails kind (pure a : Act I σ ε α) s w := by
  constructor
  · rintro ⟨e, he, -⟩
    cases he
  · rintro ⟨event, hevent, -⟩
    cases hevent

theorem endedBy_throw {e : ε} (he : ¬ kind e) (s : σ) (w : W) :
    EndedBy answer fails kind (throw e : Act I σ ε α) s w := by
  constructor
  · rintro ⟨e', he', hkind⟩
    cases he'
    exact absurd hkind he
  · rintro ⟨event, hevent, -⟩
    cases hevent

theorem EndedBy.bind (h : EndedBy answer fails kind m s w)
    (hf : ∀ a s' w', m.exec answer s w = ((.ok a, s'), w') → EndedBy answer fails kind (f a) s' w') :
    EndedBy answer fails kind (m >>= f) s w := by
  unfold EndedBy at h ⊢
  rw [exec_bind, events_bind]
  rcases hexec : m.exec answer s w with ⟨⟨e | a, s'⟩, w'⟩
  · rw [hexec] at h
    simpa using h
  · rw [hexec] at h
    have hnone : ¬ ∃ event ∈ m.events answer s w, fails event := by
      rw [← h]
      rintro ⟨e, he, -⟩
      cases he
    simp only [List.mem_append, or_and_right, exists_or]
    rw [or_iff_right hnone]
    exact hf a s' w' hexec

theorem EndedBy.foldlM {f : β → α → Act I σ ε β} (h : ∀ b a s w, EndedBy answer fails kind (f b a) s w) (l : List α)
    (b : β) (s : σ) (w : W) : EndedBy answer fails kind (l.foldlM f b) s w := by
  induction l generalizing b s w with
  | nil => exact endedBy_pure b s w
  | cons a l ih =>
    rw [List.foldlM_cons]
    exact (h b a s w).bind fun b s' w' _ => ih b s' w'

/-- A handler that passes the exceptions of the kind on. -/
theorem EndedBy.tryCatch {handle : ε → Act I σ ε α} (h : EndedBy answer fails kind m s w)
    (hkind : ∀ e, kind e → handle e = throw e)
    (hother : ∀ e s w, ¬ kind e → EndedBy answer fails kind (handle e) s w) :
    EndedBy answer fails kind (tryCatch m handle) s w := by
  unfold EndedBy at h ⊢
  rw [exec_tryCatch, events_tryCatch]
  rcases hexec : m.exec answer s w with ⟨⟨e | a, s'⟩, w'⟩
  · rw [hexec] at h
    by_cases he : kind e
    · obtain ⟨event, hevent, hfails⟩ := h.mp ⟨e, rfl, he⟩
      refine iff_of_true ⟨e, ?_, he⟩ ⟨event, List.mem_append_left _ hevent, hfails⟩
      show ((handle e).exec answer s' w').1.1 = .error e
      rw [hkind e he]
      rfl
    · have hnone : ¬ ∃ event ∈ m.events answer s w, fails event := by
        rw [← h]
        rintro ⟨e', he', hkind'⟩
        cases he'
        exact he hkind'
      simp only [List.mem_append, or_and_right, exists_or]
      rw [or_iff_right hnone]
      exact hother e s' w' he
  · rw [hexec] at h
    simpa using h

/-- Steps that only calls end return when none fails. -/
theorem EndedBy.returns (h : EndedBy answer fails (fun _ => True) m s w)
    (hnone : ∀ event ∈ m.events answer s w, ¬ fails event) : ∃ a s' w', m.exec answer s w = ((.ok a, s'), w') := by
  rcases hexec : m.exec answer s w with ⟨⟨e | a, s'⟩, w'⟩
  · obtain ⟨event, hevent, hfails⟩ := h.mp ⟨e, by rw [hexec], trivial⟩
    exact absurd hfails (hnone event hevent)
  · exact ⟨a, s', w', rfl⟩

/-- In steps that return no call failed. -/
theorem EndedBy.not_fails {a : α} (h : EndedBy answer fails kind m s w) (hexec : m.exec answer s w = ((.ok a, s'), w')) :
    ∀ event ∈ m.events answer s w, ¬ fails event := by
  intro event hevent hfails
  obtain ⟨e, he, -⟩ := h.mpr ⟨event, hevent, hfails⟩
  rw [hexec] at he
  cases he

theorem events_bind_ok {a : α} (h : m.exec answer s w = ((.ok a, s'), w')) :
    (m >>= f).events answer s w = m.events answer s w ++ (f a).events answer s' w' := by rw [events_bind, h]

end Act
end Exec

/-! ### Views -/

/-- What a party sees of the world, which the others leave as it is. -/
structure View {I : Interface} {W : Type} (C : Contract I W) (T : Type) where
  see : W → T
  stable : ∀ w w', C.rely w w' → see w' = see w

namespace Act
variable {I : Interface} {W T σ ε α β : Type} {C : Contract I W} {v : View C T}

/-- Wherever the party sees `t`, every call is allowed, and the result, or the state that an exception leaves,
    satisfies its condition with what is seen then. -/
def Ends (v : View C T) (m : Act I σ ε α) (s : σ) (t : T) (Q : α → σ → T → Prop) (E : σ → T → Prop) : Prop :=
  ∀ w, C.inv w → v.see w = t → m.Meets C s (post (fun a s w => Q a s (v.see w)) fun s w => E s (v.see w)) w

variable {m : Act I σ ε α} {f : α → Act I σ ε β} {s : σ} {t : T} {Q Q' : α → σ → T → Prop} {E E' : σ → T → Prop}
  {R : β → σ → T → Prop}

theorem Ends.pure {a : α} (h : Q a s t) : Ends v (pure a : Act I σ ε α) s t Q E := by
  rintro w - rfl w' hr -
  rw [post, v.stable w w' hr]
  exact h

theorem Ends.throw {e : ε} (h : E s t) : Ends v (throw e : Act I σ ε α) s t Q E := by
  rintro w - rfl w' hr -
  rw [post, v.stable w w' hr]
  exact h

theorem Ends.mono (h : m.Ends v s t Q E) (hQ : ∀ a s t, Q a s t → Q' a s t) (hE : ∀ s t, E s t → E' s t) :
    m.Ends v s t Q' E' := by
  intro w hi hw
  refine (h w hi hw).mono ?_
  rintro (e | a) s w - hx
  · exact hE s _ hx
  · exact hQ a s _ hx

theorem Ends.bind (h : m.Ends v s t Q E) (hf : ∀ a s t, Q a s t → (f a).Ends v s t R E) : (m >>= f).Ends v s t R E :=
  fun w hi hw => (h w hi hw).bind (fun a s w hi' ha => hf a s _ ha w hi' rfl) fun _ _ _ _ he => he

theorem Ends.tryCatch {handle : ε → Act I σ ε α} (h : m.Ends v s t Q E')
    (hhandle : ∀ e s t, E' s t → (handle e).Ends v s t Q E) : (tryCatch m handle).Ends v s t Q E :=
  fun w hi hw => (h w hi hw).tryCatch (fun _ _ _ _ ha => ha) fun e s w hi' he => hhandle e s _ he w hi' rfl

theorem Ends.foldlM {f : β → α → Act I σ ε β} {P : β → List α → σ → T → Prop}
    (hf : ∀ b a l s t, P b (a :: l) s t → (f b a).Ends v s t (fun b => P b l) E) {b : β} {l : List α}
    (h : P b l s t) : (l.foldlM f b).Ends v s t (fun b => P b []) E := by
  intro w hi hw
  refine Meets.foldlM (P := fun b l s w => P b l s (v.see w)) (fun b l s w w' hr _ hP => ?_)
    (fun b a l s w hi hP => hf b a l s _ hP w hi rfl) (hw ▸ h)
  show P b l s (v.see w')
  rw [v.stable w w' hr]
  exact hP

/-- A program of such steps meets the contract, whatever it returns. -/
theorem Ends.void {w : W} (h : m.Ends v s (v.see w) Q E) (hi : C.inv w) :
    (m.start s).void.Meets C (fun _ _ => True) w := Program.Meets.void (h w hi rfl)

end Act

/-! ### Pools -/

/-- Programs at work on one world, each under its number. -/
structure Pool (I : Interface) (W : Type) where
  world : W
  procs : Nat → Option (Program I Unit)

/-- How a world moves: on its own, by a call of a program, and when a program may be started. -/
structure Dynamics (I : Interface) (W : Type) where
  moves : W → W → Prop
  answers : Nat → (c : I.Call) → W → I.Reply c → W → Prop
  starts : Nat → W → Program I Unit → Prop

/-- The dynamics in which a call is only made when a condition holds. -/
def Dynamics.restrict {I : Interface} {W : Type} (D : Dynamics I W) (ok : Nat → I.Call → W → Prop) : Dynamics I W :=
  { D with answers := fun n c w r w' => ok n c w ∧ D.answers n c w r w' }

namespace Pool
variable {I : Interface} {W : Type}

/-- The pool with the program of a number replaced. -/
def set (s : Pool I W) (n : Nat) (p : Option (Program I Unit)) : Pool I W :=
  { s with procs := fun k => if k = n then p else s.procs k }

/-- A step of a pool: the world moves, a program makes a call and gets a reply, a program starts, or one stops
    wherever it is. -/
inductive Step (D : Dynamics I W) : Pool I W → Pool I W → Prop
  | move {s : Pool I W} {w : W} (h : D.moves s.world w) : Step D s { s with world := w }
  | call {s : Pool I W} {n : Nat} {c : I.Call} {next : I.Reply c → Program I Unit} {r : I.Reply c} {w : W}
      (hp : s.procs n = some (.call c next)) (h : D.answers n c s.world r w) :
      Step D s (set { s with world := w } n (some (next r)))
  | start {s : Pool I W} {n : Nat} {p : Program I Unit} (hn : s.procs n = none) (h : D.starts n s.world p) :
      Step D s (s.set n (some p))
  | stop {s : Pool I W} (n : Nat) : Step D s (s.set n none)

/-- The pools that steps lead to. -/
def Reaches (D : Dynamics I W) : Pool I W → Pool I W → Prop := Relation.ReflTransGen (Step D)

/-- A world with no program at work. -/
def idle (w : W) : Pool I W := ⟨w, fun _ => none⟩

@[simp] theorem procs_set (s : Pool I W) (n : Nat) (p : Option (Program I Unit)) : (s.set n p).procs n = p := if_pos rfl

theorem set_self {s : Pool I W} {n : Nat} {p : Program I Unit} (h : s.procs n = some p) : s.set n (some p) = s := by
  have hprocs : (fun k => if k = n then some p else s.procs k) = s.procs := by
    funext k
    split
    · next hk => rw [hk, h]
    · rfl
  rw [set, hprocs]

/-- A program at work may make its next calls, when from the worlds that it meets the world may answer them so. -/
theorem reaches_left_of {D : Dynamics I W} {answer : (c : I.Call) → W → I.Reply c × W} {i : Nat} {P : W → Prop}
    (hP : ∀ c w, P w → P (answer c w).2) (hanswer : ∀ c w, P w → D.answers i c w (answer c w).1 (answer c w).2)
    {s : Pool I W} {p : Program I Unit} (hworld : P s.world) (hp : s.procs i = some p) (n : Nat) :
    Reaches D s (set { s with world := p.after answer n s.world } i (some (p.left answer n s.world))) := by
  induction n generalizing s p with
  | zero =>
    have hsame : (set { s with world := p.after answer 0 s.world } i (some (p.left answer 0 s.world)) : Pool I W) = s :=
      set_self hp
    rw [hsame]
    exact .refl
  | succ n ih =>
    cases p with
    | done a =>
      have hsame : (set { s with world := Program.after answer (n + 1) (.done a : Program I Unit) s.world } i
          (some (Program.left answer (n + 1) (.done a) s.world)) : Pool I W) = s := set_self hp
      rw [hsame]
      exact .refl
    | call c next =>
      have hfirst := Step.call hp (hanswer c s.world hworld)
      have hnext : (set { s with world := (answer c s.world).2 } i (some (next (answer c s.world).1)) : Pool I W).procs i =
          some (next (answer c s.world).1) := procs_set _ _ _
      refine .head hfirst ?_
      have hrest := ih (hP c s.world hworld) hnext
      have hset : (set { set { s with world := (answer c s.world).2 } i (some (next (answer c s.world).1)) with
            world := (next (answer c s.world).1).after answer n (answer c s.world).2 } i
          (some ((next (answer c s.world).1).left answer n (answer c s.world).2)) : Pool I W) =
          set { s with world := Program.after answer (n + 1) (.call c next) s.world } i
            (some (Program.left answer (n + 1) (.call c next) s.world)) := by
        simp only [set, Program.after, Program.left, Pool.mk.injEq, true_and]
        funext k
        split
        · rfl
        · rfl
      exact hset ▸ hrest

/-- The same when the world may always answer so. -/
theorem reaches_left {D : Dynamics I W} {answer : (c : I.Call) → W → I.Reply c × W} {i : Nat}
    (hanswer : ∀ c w, D.answers i c w (answer c w).1 (answer c w).2) {s : Pool I W} {p : Program I Unit}
    (hp : s.procs i = some p) (n : Nat) :
    Reaches D s (set { s with world := p.after answer n s.world } i (some (p.left answer n s.world))) :=
  reaches_left_of (P := fun _ => True) (fun _ _ _ => trivial) (fun c w _ => hanswer c w) trivial hp n

/-- Contracts, one for each number, that the parties keep among themselves. -/
structure Sound (D : Dynamics I W) (C : Nat → Contract I W) (inv : W → Prop) : Prop where
  invs : ∀ n w, inv w → (C n).inv w
  move : ∀ w w', inv w → D.moves w w' → inv w' ∧ ∀ n, (C n).rely w w'
  call : ∀ n c w r w', inv w → (C n).allowed c w → D.answers n c w r w' →
    inv w' ∧ (C n).answers c w r w' ∧ ∀ k, k ≠ n → (C k).rely w w'
  start : ∀ n w p, inv w → D.starts n w p → p.Meets (C n) (fun _ _ => True) w

/-- The world keeps its invariant and every program at work meets its contract. -/
structure Good (C : Nat → Contract I W) (inv : W → Prop) (s : Pool I W) : Prop where
  world : inv s.world
  procs : ∀ n p, s.procs n = some p → p.Meets (C n) (fun _ _ => True) s.world

variable {D : Dynamics I W} {C : Nat → Contract I W} {inv : W → Prop} {s s' : Pool I W} {w : W}

theorem good_idle (h : inv w) : Good C inv (idle w : Pool I W) := ⟨h, fun _ _ hp => nomatch hp⟩

/-- A program that makes its next call was allowed to. -/
theorem Good.allowed (hD : Sound D C inv) (h : Good C inv s) {n : Nat} {c : I.Call} {next : I.Reply c → Program I Unit}
    (hp : s.procs n = some (.call c next)) : (C n).allowed c s.world :=
  (h.procs n _ hp s.world ((C n).rely_refl _) (hD.invs n _ h.world)).1

theorem Good.step (hD : Sound D C inv) (h : Good C inv s) (hstep : Step D s s') : Good C inv s' := by
  cases hstep with
  | move hmove =>
    obtain ⟨hi, hr⟩ := hD.move _ _ h.world hmove
    exact ⟨hi, fun n p hp => (h.procs n p hp).rely (hr n)⟩
  | @call n c next r w hp hans =>
    have hmeets := h.procs n _ hp s.world ((C n).rely_refl _) (hD.invs n _ h.world)
    obtain ⟨hi, hans', hothers⟩ := hD.call n c _ r w h.world hmeets.1 hans
    refine ⟨hi, fun k p hk => ?_⟩
    simp only [set] at hk
    split at hk
    · next hkn =>
      cases hk
      rw [hkn]
      exact hmeets.2 r w hans' (hD.invs n w hi)
    · next hkn => exact (h.procs k p hk).rely (hothers k hkn)
  | @start n p hn hstart =>
    refine ⟨h.world, fun k q hk => ?_⟩
    simp only [set] at hk
    split at hk
    · next hkn =>
      cases hk
      rw [hkn]
      exact hD.start n _ p h.world hstart
    · exact h.procs k q hk
  | stop n =>
    refine ⟨h.world, fun k q hk => ?_⟩
    simp only [set] at hk
    split at hk
    · cases hk
    · exact h.procs k q hk

/-- In every pool reached the world keeps its invariant and the programs their contracts. -/
theorem Good.reaches (hD : Sound D C inv) (h : Good C inv s) (hreach : Reaches D s s') : Good C inv s' := by
  induction hreach with
  | refl => exact h
  | tail _ hstep ih => exact ih.step hD hstep

end Pool
end AsymmetricCommittee
