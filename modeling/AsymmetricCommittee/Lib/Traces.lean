import AsymmetricCommittee.Lib.Program

/-! What a program may do when it may be replied anything: its traces, and what a contract says of them. -/

namespace AsymmetricCommittee

/-- A program can make these calls, be replied so, and go on as the other. -/
inductive Program.Runs {I : Interface} {α : Type} : Program I α → List (Event I) → Program I α → Prop
  | refl (p : Program I α) : Runs p [] p
  | call {c : I.Call} {next : I.Reply c → Program I α} {r : I.Reply c} {evs : List (Event I)} {q : Program I α}
      (h : Runs (next r) evs q) : Runs (.call c next) (⟨c, r⟩ :: evs) q

/-- The party that may be replied anything; the world is what has happened. -/
def Contract.traced {I : Interface} (ok : I.Call → List (Event I) → Prop) : Contract I (List (Event I)) where
  inv _ := True
  rely w w' := w' = w
  allowed := ok
  answers c w r w' := w' = w ++ [⟨c, r⟩]
  rely_refl _ := rfl
  rely_trans _ _ _ h h' := h'.trans h

section Traces
variable {I : Interface} {α : Type} {ok : I.Call → List (Event I) → Prop} {w : List (Event I)}

@[simp] theorem Contract.stays_traced {P : List (Event I) → Prop} : (Contract.traced ok).Stays P w ↔ P w :=
  ⟨fun h => h w rfl trivial, fun h _ hr _ => hr ▸ h⟩

theorem Contract.stable_traced {P : List (Event I) → Prop} : (Contract.traced ok).Stable P := fun _ _ hr _ h => hr ▸ h

namespace Program
variable {p q : Program I α} {Q : α → List (Event I) → Prop} {evs : List (Event I)}

theorem Meets.runs (h : p.Meets (Contract.traced ok) Q w) (hr : p.Runs evs q) :
    q.Meets (Contract.traced ok) Q (w ++ evs) := by
  induction hr generalizing w with
  | refl p => rwa [List.append_nil]
  | @call c next r evs q hr ih =>
    have hnext := (Contract.stays_traced.mp h).2 r (w ++ [(⟨c, r⟩ : Event I)]) rfl trivial
    rw [List.append_cons]
    exact ih hnext

/-- A program that may always make calls of a kind, and no others, only makes these. -/
theorem Meets.uses {kind : I.Call → Prop} (h : p.Meets (Contract.traced fun c _ => kind c) Q w) : p.Uses kind := by
  induction p generalizing w with
  | done a => trivial
  | call c next ih =>
    obtain ⟨hkind, hnext⟩ := Contract.stays_traced.mp h
    exact ⟨hkind, fun r => ih r (hnext r (w ++ [(⟨c, r⟩ : Event I)]) rfl trivial)⟩

theorem Runs.exists_of_append {evs' : List (Event I)} (h : p.Runs (evs ++ evs') q) :
    ∃ p', p.Runs evs p' ∧ p'.Runs evs' q := by
  induction evs generalizing p with
  | nil => exact ⟨p, .refl p, h⟩
  | cons e evs ih =>
    cases h with
    | call h =>
      obtain ⟨p', hp, hq⟩ := ih h
      exact ⟨p', .call hp, hq⟩

/-- Every call that is made is allowed when it is. -/
theorem Meets.allowed_of_runs (h : p.Meets (Contract.traced ok) Q w) {before after : List (Event I)} {e : Event I}
    (hr : p.Runs (before ++ e :: after) q) : ok e.call (w ++ before) := by
  obtain ⟨p', hp, hq⟩ := hr.exists_of_append
  have hmeets := h.runs hp
  cases hq with
  | call hq => exact (Contract.stays_traced.mp hmeets).1

/-- What a program returns is as it should be then. -/
theorem Meets.of_runs_done {a : α} (h : p.Meets (Contract.traced ok) Q w) (hr : p.Runs evs (.done a)) : Q a (w ++ evs) :=
  Contract.stays_traced.mp (h.runs hr)

/-- What a program returns it returns by what happened since. -/
theorem Meets.ran (h : p.Meets (Contract.traced ok) Q w) :
    p.Meets (Contract.traced ok) (fun a w' => Q a w' ∧ ∃ evs, w' = w ++ evs ∧ p.Runs evs (.done a)) w := by
  induction p generalizing w with
  | done a => exact Contract.stays_traced.mpr ⟨Contract.stays_traced.mp h, [], (List.append_nil w).symm, .refl _⟩
  | call c next ih =>
    obtain ⟨hok, hnext⟩ := Contract.stays_traced.mp h
    refine Contract.stays_traced.mpr ⟨hok, fun r w' hw' hi => (ih r (hnext r w' hw' hi)).mono ?_⟩
    rintro a w'' - ⟨hQ, evs, rfl, hruns⟩
    subst hw'
    exact ⟨hQ, ⟨c, r⟩ :: evs, List.append_assoc w [(⟨c, r⟩ : Event I)] evs, .call hruns⟩

/-- What a trace begins with tells how a program ended that has run through. -/
theorem Runs.unique {a a' : α} {evs' rest rest' : List (Event I)} (h : p.Runs evs (.done a)) (h' : p.Runs evs' (.done a'))
    (heq : evs ++ rest = evs' ++ rest') : a = a' ∧ evs = evs' ∧ rest = rest' := by
  induction evs generalizing p evs' with
  | nil =>
    cases h
    cases h'
    exact ⟨rfl, rfl, heq⟩
  | cons e evs ih =>
    cases h with
    | call h =>
      cases h' with
      | call h' =>
        obtain ⟨he, htail⟩ := List.cons.inj heq
        cases he
        obtain ⟨ha, hevs, hrest⟩ := ih h h' htail
        exact ⟨ha, congrArg _ hevs, hrest⟩

section Exec
variable {W : Type} (answer : (c : I.Call) → W → I.Reply c × W)

/-- What a program calls and is replied when no one else acts. -/
def trace : Program I α → W → List (Event I)
  | .done _, _ => []
  | .call c next, w => ⟨c, (answer c w).1⟩ :: (next (answer c w).1).trace (answer c w).2

theorem runs_trace (p : Program I α) (w : W) : p.Runs (p.trace answer w) (.done (p.exec answer w).1) := by
  induction p generalizing w with
  | done a => exact .refl _
  | call c next ih => exact .call (ih _ _)

/-- Every reply is an answer. -/
theorem mem_trace {p : Program I α} {w : W} {e : Event I} (h : e ∈ p.trace answer w) :
    ∃ w', e.reply = (answer e.call w').1 := by
  induction p generalizing w with
  | done a => cases h
  | call c next ih =>
    rcases List.mem_cons.mp h with rfl | h
    · exact ⟨w, rfl⟩
    · exact ih _ h

end Exec
end Program

theorem Act.Meets.ran {σ ε : Type} {m : Act I σ ε α} {s : σ} {Q : Except ε α → σ → List (Event I) → Prop}
    (h : m.Meets (Contract.traced ok) s Q w) : m.Meets (Contract.traced ok) s
      (fun x s' w' => Q x s' w' ∧ ∃ evs, w' = w ++ evs ∧ (m.start s).Runs evs (.done (x, s'))) w :=
  Program.Meets.ran h

/-! ### Traces that go on -/

/-- The trace went on with calls of a kind. -/
def Grew (kind : I.Call → Prop) (w w' : List (Event I)) : Prop := ∃ evs, w' = w ++ evs ∧ ∀ e ∈ evs, kind e.call

namespace Grew
variable {kind kind' : I.Call → Prop} {w' w'' : List (Event I)} {e : Event I}

theorem refl : Grew kind w w := ⟨[], (List.append_nil w).symm, nofun⟩

theorem snoc (h : Grew kind w w') (he : kind e.call) : Grew kind w (w' ++ [e]) := by
  obtain ⟨evs, rfl, hevs⟩ := h
  refine ⟨evs ++ [e], List.append_assoc w evs [e], fun e' he' => ?_⟩
  rcases List.mem_append.mp he' with he' | he'
  · exact hevs e' he'
  · rw [List.mem_singleton.mp he']
    exact he

theorem trans (h : Grew kind w w') (h' : Grew kind w' w'') : Grew kind w w'' := by
  obtain ⟨evs, rfl, hevs⟩ := h
  obtain ⟨evs', rfl, hevs'⟩ := h'
  exact ⟨evs ++ evs', List.append_assoc w evs evs', fun e he => (List.mem_append.mp he).elim (hevs e) (hevs' e)⟩

theorem mono (h : Grew kind w w') (hk : ∀ c, kind c → kind' c) : Grew kind' w w' := by
  obtain ⟨evs, rfl, hevs⟩ := h
  exact ⟨evs, rfl, fun e he => hk _ (hevs e he)⟩

theorem mem (h : Grew kind w w') (he : e ∈ w) : e ∈ w' := by
  obtain ⟨evs, rfl, -⟩ := h
  exact List.mem_append_left evs he

theorem mem_iff (h : Grew kind w w') (e : Event I) (he : ¬kind e.call) : e ∈ w' ↔ e ∈ w := by
  obtain ⟨evs, rfl, hevs⟩ := h
  rw [List.mem_append, or_iff_left fun hmem => he (hevs e hmem)]

theorem forall_not {P : I.Call → Prop} (h : Grew kind w w') (hw : ∀ e ∈ w, ¬P e.call) (hk : ∀ c, P c → ¬kind c) :
    ∀ e ∈ w', ¬P e.call := fun e he hP => hw e ((h.mem_iff e (hk _ hP)).mp he) hP

end Grew

/-- Steps that only make calls of a kind leave a trace of that kind behind. -/
theorem Act.Uses.grows {σ ε : Type} {m : Act I σ ε α} {s : σ} {Q : Except ε α → σ → List (Event I) → Prop}
    {kind : I.Call → Prop} (hu : m.Uses kind) (h : m.Meets (Contract.traced ok) s Q w) :
    m.Meets (Contract.traced ok) s (fun x s w' => Q x s w' ∧ Grew kind w w') w := by
  refine hu.frame h Contract.stable_traced ?_ Grew.refl
  intro c w₁ r w₂ hc hans hgrew
  subst hans
  exact hgrew.snoc hc

end Traces

/-! ### Logs -/

/-- The events of one party in a log that several write. -/
def own {I : Interface} (n : Nat) (log : List (Nat × Event I)) : List (Event I) :=
  log.filterMap fun x => if x.1 = n then some x.2 else none

section Logs
variable {I : Interface} {W α : Type} {n k : Nat} {log log' : List (Nat × Event I)} {e : Event I}

@[simp] theorem own_append : own n (log ++ log') = own n log ++ own n log' := List.filterMap_append

theorem own_mine : own n [(n, e)] = [e] := by simp [own]

theorem own_other (h : k ≠ n) : own n [(k, e)] = [] := by simp [own, h]

theorem mem_own : e ∈ own n log ↔ (n, e) ∈ log := by
  simp only [own, List.mem_filterMap, Option.ite_none_right_eq_some, Option.some.injEq, Prod.exists]
  constructor
  · rintro ⟨k, e', hmem, rfl, rfl⟩
    exact hmem
  · intro h
    exact ⟨n, e, h, rfl, rfl⟩

/-- Every call in the log was allowed by what its party had seen before. -/
def LoggedAllowed (ok : I.Call → List (Event I) → Prop) (log : List (Nat × Event I)) : Prop :=
  ∀ before n e after, log = before ++ (n, e) :: after → ok e.call (own n before)

variable {ok : I.Call → List (Event I) → Prop}

theorem LoggedAllowed.nil : LoggedAllowed ok ([] : List (Nat × Event I)) := by
  intro before n e after h
  simp at h

theorem LoggedAllowed.snoc (h : LoggedAllowed ok log) (he : ok e.call (own n log)) : LoggedAllowed ok (log ++ [(n, e)]) := by
  intro before k e' after heq
  rcases List.eq_nil_or_concat after with rfl | ⟨rest, last, rfl⟩
  · obtain ⟨rfl, hlast⟩ := List.append_inj' heq rfl
    cases hlast
    exact he
  · rw [List.concat_eq_append, ← List.cons_append, ← List.append_assoc] at heq
    exact h before k e' rest (List.append_inj' heq rfl).1

/-- A party that sees its own events in the log. -/
def Contract.logged (log : W → List (Nat × Event I)) (ok : I.Call → List (Event I) → Prop) (n : Nat) : Contract I W where
  inv _ := True
  rely w w' := own n (log w') = own n (log w)
  allowed c w := ok c (own n (log w))
  answers c w r w' := log w' = log w ++ [(n, ⟨c, r⟩)]
  rely_refl _ := rfl
  rely_trans _ _ _ h h' := h'.trans h

/-- What a party does that may be replied anything it does beside others. -/
theorem Program.Meets.logged {log : W → List (Nat × Event I)} {p : Program I α} {Q : α → List (Event I) → Prop} {w : W}
    (h : p.Meets (Contract.traced ok) Q (own n (log w))) :
    p.Meets (Contract.logged log ok n) (fun a w => Q a (own n (log w))) w := by
  induction p generalizing w with
  | done a =>
    intro w' hr _
    obtain hr : own n (log w') = own n (log w) := hr
    rw [hr]
    exact Contract.stays_traced.mp h
  | call c next ih =>
    intro w' hr _
    obtain hr : own n (log w') = own n (log w) := hr
    obtain ⟨hok, hnext⟩ := Contract.stays_traced.mp h
    refine ⟨?_, fun r w'' hans _ => ih r ?_⟩
    · change ok c (own n (log w'))
      rwa [hr]
    · obtain hans : log w'' = log w' ++ [(n, (⟨c, r⟩ : Event I))] := hans
      rw [hans, own_append, own_mine, hr]
      exact hnext r _ rfl trivial

/-- Parties that only tell each other of their calls by a log make them where they are allowed. -/
theorem Pool.sound_logged {D : Dynamics I W} {log : W → List (Nat × Event I)}
    (hmoves : ∀ w w', D.moves w w' → log w' = log w)
    (hanswers : ∀ n c w r w', D.answers n c w r w' → log w' = log w ++ [(n, ⟨c, r⟩)])
    (hstarts : ∀ n w p, D.starts n w p → p.Meets (Contract.traced ok) (fun _ _ => True) (own n (log w))) :
    Pool.Sound D (Contract.logged log ok) fun w => LoggedAllowed ok (log w) where
  invs _ _ _ := trivial
  move w w' h hmove := by
    have hsame := hmoves w w' hmove
    exact ⟨hsame ▸ h, fun n => congrArg (own n) hsame⟩
  call n c w r w' h hallowed hans := by
    have hlog := hanswers n c w r w' hans
    refine ⟨hlog ▸ h.snoc hallowed, hlog, fun k hk => ?_⟩
    change own k (log w') = own k (log w)
    rw [hlog, own_append, own_other hk.symm, List.append_nil]
  start n w p _ hstart := (hstarts n w p hstart).logged

end Logs

end AsymmetricCommittee
