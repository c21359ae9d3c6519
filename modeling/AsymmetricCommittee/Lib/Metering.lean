import Mathlib.Algebra.Order.Field.Basic
import Mathlib.Tactic.Linarith
import Mathlib.Tactic.Ring

/-! A level that refills at a constant rate up to a capacity, and what can be drawn from it. -/

namespace Metering
variable {K : Type*} [Field K] [LinearOrder K] {cap rate level now : K}

/-- The level after a time. -/
def refill (cap rate level time : K) : K := min cap (level + time * rate)

theorem refill_le_cap (time : K) : refill cap rate level time ≤ cap := min_le_left _ _

/-- Amounts that are drawn one after another, each no more than the level then. -/
inductive Draws (cap rate : K) : K → K → List (K × K) → Prop
  | nil {now level : K} : Draws cap rate now level []
  | cons {now level time amount : K} {rest : List (K × K)} (hlater : now ≤ time) (hnonneg : 0 ≤ amount)
      (hle : amount ≤ refill cap rate level (time - now))
      (hrest : Draws cap rate time (refill cap rate level (time - now) - amount) rest) :
      Draws cap rate now level ((time, amount) :: rest)

/-- What is drawn from a time on until another. -/
def drawn (first last : K) (draws : List (K × K)) : K :=
  ((draws.filter fun d => first ≤ d.1 ∧ d.1 ≤ last).map Prod.snd).sum

theorem drawn_cons {first last : K} {d : K × K} {draws : List (K × K)} :
    drawn first last (d :: draws) = (if first ≤ d.1 ∧ d.1 ≤ last then d.2 else 0) + drawn first last draws := by
  unfold drawn
  rw [List.filter_cons]
  by_cases h : first ≤ d.1 ∧ d.1 ≤ last
  · simp [h]
  · simp [h]

theorem Draws.later {draws : List (K × K)} (h : Draws cap rate now level draws) : ∀ d ∈ draws, now ≤ d.1 := by
  induction h with
  | nil => simp
  | cons hlater hnonneg hle hrest ih =>
    intro d hd
    rcases List.mem_cons.mp hd with rfl | hd
    · exact hlater
    · exact hlater.trans (ih d hd)

variable [IsStrictOrderedRing K]

theorem le_refill (hrate : 0 ≤ rate) (hcap : level ≤ cap) {time : K} (htime : 0 ≤ time) :
    level ≤ refill cap rate level time :=
  le_min hcap (le_add_of_nonneg_right (mul_nonneg htime hrate))

theorem refill_mono {level' : K} (h : level ≤ level') (time : K) : refill cap rate level time ≤ refill cap rate level' time :=
  min_le_min le_rfl (add_le_add h le_rfl)

/-- A full level stays full. -/
theorem refill_full (hrate : 0 ≤ rate) {time : K} (htime : 0 ≤ time) : refill cap rate cap time = cap :=
  min_eq_left (le_add_of_nonneg_right (mul_nonneg htime hrate))

/-- Refilling twice is refilling for both times. -/
theorem refill_refill (hrate : 0 ≤ rate) (time : K) {time' : K} (htime' : 0 ≤ time') :
    refill cap rate (refill cap rate level time) time' = refill cap rate level (time + time') := by
  have hpos : 0 ≤ time' * rate := mul_nonneg htime' hrate
  unfold refill
  rcases le_total cap (level + time * rate) with h | h
  · rw [min_eq_left h, min_eq_left (by linarith), min_eq_left (by linarith)]
  · rw [min_eq_right h, add_mul, add_assoc]

/-- What is drawn until a time is at most the level and the refill until then. -/
theorem Draws.drawn_le_level (hrate : 0 ≤ rate) {draws : List (K × K)} (h : Draws cap rate now level draws) :
    ∀ (first : K) {last : K}, now ≤ last → 0 ≤ level → drawn first last draws ≤ level + rate * (last - now) := by
  induction h with
  | nil =>
    intro first last hlast hlevel
    have hpos : 0 ≤ rate * (last - _) := mul_nonneg hrate (sub_nonneg.mpr hlast)
    simpa [drawn] using add_nonneg hlevel hpos
  | @cons now level time amount rest hlater hnonneg hle hrest ih =>
    intro first last hlast hlevel
    by_cases htime : time ≤ last
    · have hrest := ih first htime (sub_nonneg.mpr hle)
      have hrefill : refill cap rate level (time - now) ≤ level + (time - now) * rate := min_le_right _ _
      have hhead : (if first ≤ time ∧ time ≤ last then amount else 0) ≤ amount := by
        split
        · exact le_rfl
        · exact hnonneg
      rw [drawn_cons]
      linarith
    · have hnone : drawn first last ((time, amount) :: rest) = 0 := by
        unfold drawn
        rw [List.filter_eq_nil_iff.mpr]
        · rfl
        · intro d hd
          have hd : time ≤ d.1 := by
            rcases List.mem_cons.mp hd with rfl | hd
            · exact le_rfl
            · exact hrest.later d hd
          simpa using fun _ => (not_le.mp htime).trans_le hd
      have hpos : 0 ≤ rate * (last - now) := mul_nonneg hrate (sub_nonneg.mpr hlast)
      rw [hnone]
      linarith

/-- In no window is more drawn than the capacity and the refill of the window. -/
theorem Draws.drawn_le (hcap : 0 ≤ cap) (hrate : 0 ≤ rate) {draws : List (K × K)} (h : Draws cap rate now level draws) :
    ∀ {first last : K}, first ≤ last → drawn first last draws ≤ cap + rate * (last - first) := by
  induction h with
  | nil =>
    intro first last hle
    simpa [drawn] using add_nonneg hcap (mul_nonneg hrate (sub_nonneg.mpr hle))
  | @cons now level time amount rest hlater hnonneg hle hrest ih =>
    intro first last hwindow
    rw [drawn_cons]
    split
    · next htime =>
      have hrest := hrest.drawn_le_level hrate first htime.2 (sub_nonneg.mpr hle)
      have hfull : refill cap rate level (time - now) ≤ cap := refill_le_cap _
      have hshift : rate * (last - time) ≤ rate * (last - first) := mul_le_mul_of_nonneg_left (by linarith [htime.1]) hrate
      linarith
    · rw [zero_add]
      exact ih hwindow

/-! ### A meter that is asked for amounts -/

/-- The level at a time. -/
structure Meter (K : Type*) where
  level : K
  time : K

omit [IsStrictOrderedRing K]

namespace Meter
variable (cap rate)

def levelAt (m : Meter K) (time : K) : K := refill cap rate m.level (time - m.time)

/-- What is missing for an amount; none if it is drawn. -/
def short (m : Meter K) (time amount : K) : Option K :=
  if amount ≤ m.levelAt cap rate time then none else some (amount - m.levelAt cap rate time)

/-- The meter after an attempt, which draws all of the amount or nothing. -/
def attempt (m : Meter K) (time amount : K) : Meter K :=
  ⟨m.levelAt cap rate time - if amount ≤ m.levelAt cap rate time then amount else 0, time⟩

/-- Attempts one after another, each with what it is short of. -/
def trace : Meter K → List (K × K) → List ((K × K) × Option K)
  | _, [] => []
  | m, a :: rest => (a, m.short cap rate a.1 a.2) :: trace (m.attempt cap rate a.1 a.2) rest

variable {cap rate} {m : Meter K} {time amount : K}

theorem short_eq_none : m.short cap rate time amount = none ↔ amount ≤ m.levelAt cap rate time := by
  unfold short
  split <;> simp [*]

theorem attempt_short {missing : K} (h : m.short cap rate time amount = some missing) :
    missing = amount - m.levelAt cap rate time ∧ m.attempt cap rate time amount = ⟨m.levelAt cap rate time, time⟩ := by
  unfold short at h
  split at h
  · cases h
  · next hfew =>
    unfold attempt
    rw [if_neg hfew, sub_zero]
    exact ⟨(Option.some.inj h).symm, rfl⟩

end Meter

/-- What each attempt of a trace draws. -/
def draws (tr : List ((K × K) × Option K)) : List (K × K) :=
  tr.map fun x => (x.1.1, if x.2 = none then x.1.2 else 0)

/-- What a meter promises of a trace: no window holds more than the capacity and its refill, and what an attempt was short of
    has come in when the refill is as much, unless another one draws before. -/
structure Keeps (cap rate : K) (tr : List ((K × K) × Option K)) : Prop where
  drawn : ∀ first last, first ≤ last → drawn first last (draws tr) ≤ cap + rate * (last - first)
  retried : ∀ before time amount missing mid later result after,
    tr = before ++ ((time, amount), some missing) :: mid ++ ((later, amount), result) :: after →
      (∀ x ∈ mid, x.2 ≠ none) → amount ≤ cap → missing ≤ (later - time) * rate → result = none

/-- A meter and the attempts that come after it. -/
structure Ready (cap : K) (m : Meter K) (attempts : List (K × K)) : Prop where
  nonneg : 0 ≤ m.level
  le_cap : m.level ≤ cap
  amounts : ∀ a ∈ attempts, 0 ≤ a.2
  sorted : (attempts.map Prod.fst).Pairwise (· ≤ ·)
  later : ∀ a ∈ attempts, m.time ≤ a.1

variable [IsStrictOrderedRing K] {m : Meter K} {a : K × K} {attempts : List (K × K)}

/-- A meter that is read does not change. -/
theorem Meter.levelAt_levelAt (hrate : 0 ≤ rate) {time later : K} (h : time ≤ later) :
    (⟨m.levelAt cap rate time, time⟩ : Meter K).levelAt cap rate later = m.levelAt cap rate later := by
  unfold Meter.levelAt
  rw [refill_refill hrate _ (sub_nonneg.mpr h)]
  congr 1
  ring

theorem Ready.levelAt_nonneg (hrate : 0 ≤ rate) (h : Ready cap m (a :: attempts)) : 0 ≤ m.levelAt cap rate a.1 :=
  h.nonneg.trans (le_refill hrate h.le_cap (sub_nonneg.mpr (h.later a List.mem_cons_self)))

theorem Ready.step (hrate : 0 ≤ rate) (h : Ready cap m (a :: attempts)) : Ready cap (m.attempt cap rate a.1 a.2) attempts := by
  obtain ⟨ha, hamounts⟩ := List.forall_mem_cons.mp h.amounts
  obtain ⟨hfirst, hsorted⟩ := List.pairwise_cons.mp h.sorted
  refine ⟨?_, ?_, hamounts, hsorted, fun b hb => hfirst b.1 (List.mem_map_of_mem hb)⟩
  · unfold Meter.attempt
    dsimp only
    split
    · next hle => exact sub_nonneg.mpr hle
    · rw [sub_zero]
      exact h.levelAt_nonneg hrate
  · refine (sub_le_self _ ?_).trans (refill_le_cap _)
    split
    · exact ha
    · exact le_rfl

/-- A trace draws what the meter holds. -/
theorem Ready.draws (hrate : 0 ≤ rate) (h : Ready cap m attempts) :
    Draws cap rate m.time m.level (draws (m.trace cap rate attempts)) := by
  induction attempts generalizing m with
  | nil => exact .nil
  | cons a attempts ih =>
    have hlater := h.later a List.mem_cons_self
    have hrest := ih (h.step hrate)
    show Draws cap rate m.time m.level ((a.1, if m.short cap rate a.1 a.2 = none then a.2 else 0) ::
      Metering.draws ((m.attempt cap rate a.1 a.2).trace cap rate attempts))
    unfold Meter.attempt at hrest ⊢
    by_cases hle : a.2 ≤ m.levelAt cap rate a.1
    · rw [if_pos hle] at hrest ⊢
      rw [if_pos (Meter.short_eq_none.mpr hle)]
      exact .cons hlater (h.amounts a List.mem_cons_self) hle hrest
    · rw [if_neg hle] at hrest ⊢
      rw [if_neg (mt Meter.short_eq_none.mp hle)]
      exact .cons hlater le_rfl (h.levelAt_nonneg hrate) hrest

/-- What is left of a trace is the trace of what is left; where nothing was drawn, the meter has been refilled only. -/
theorem Ready.drop (hrate : 0 ≤ rate) {before tr : List ((K × K) × Option K)} :
    ∀ {m : Meter K} {attempts : List (K × K)}, Ready cap m attempts → m.trace cap rate attempts = before ++ tr →
      ∃ m' attempts', Ready cap m' attempts' ∧ m'.trace cap rate attempts' = tr ∧ m.time ≤ m'.time ∧
        ((∀ x ∈ before, x.2 ≠ none) → ∀ t, m'.time ≤ t → m'.levelAt cap rate t = m.levelAt cap rate t) := by
  induction before with
  | nil => exact fun {m attempts} h htr => ⟨m, attempts, h, htr, le_rfl, fun _ _ _ => rfl⟩
  | cons x before ih =>
    intro m attempts h htr
    cases attempts with
    | nil => cases htr
    | cons a attempts =>
      obtain ⟨rfl, hrest⟩ := List.cons.inj htr
      obtain ⟨m', attempts', hready, htr', htime, hsame⟩ := ih (h.step hrate) hrest
      refine ⟨m', attempts', hready, htr', (h.later a List.mem_cons_self).trans htime, fun hnone t ht => ?_⟩
      obtain ⟨hfirst, hnone⟩ := List.forall_mem_cons.mp hnone
      obtain ⟨missing, hmissing⟩ := Option.ne_none_iff_exists'.mp hfirst
      rw [hsame hnone t ht, (Meter.attempt_short hmissing).2]
      exact Meter.levelAt_levelAt hrate (htime.trans ht)

/-- A meter keeps its capacity. -/
theorem keeps_trace (hcap : 0 ≤ cap) (hrate : 0 ≤ rate) (h : Ready cap m attempts) :
    Keeps cap rate (m.trace cap rate attempts) := by
  refine ⟨fun first last hwindow => (h.draws hrate).drawn_le hcap hrate hwindow, ?_⟩
  intro before time amount missing mid later result after htr hnone hamount hmissing
  rw [List.append_assoc] at htr
  obtain ⟨m', attempts', hready, htr', -, -⟩ := h.drop hrate htr
  cases attempts' with
  | nil => cases htr'
  | cons a attempts' =>
    obtain ⟨hfirst, hrest⟩ := List.cons.inj htr'
    obtain ⟨rfl, hshort⟩ : a = (time, amount) ∧ m'.short cap rate a.1 a.2 = some missing := Prod.mk.inj hfirst
    obtain ⟨m'', attempts'', hready'', hrest', -, hsame⟩ := (hready.step hrate).drop hrate hrest
    cases attempts'' with
    | nil => cases hrest'
    | cons b attempts'' =>
      obtain ⟨hlast, -⟩ := List.cons.inj hrest'
      obtain ⟨rfl, rfl⟩ : b = (later, amount) ∧ m''.short cap rate b.1 b.2 = result := Prod.mk.inj hlast
      obtain ⟨rfl, hattempt⟩ := Meter.attempt_short hshort
      rw [Meter.short_eq_none, hsame hnone later (hready''.later _ List.mem_cons_self), hattempt]
      refine le_min hamount ?_
      exact sub_le_iff_le_add'.mp hmissing

end Metering
