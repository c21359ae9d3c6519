import Mathlib.Algebra.Order.Group.Defs
import Mathlib.Algebra.Order.Group.Unbundled.Basic
import Mathlib.Data.List.Basic
import Mathlib.Tactic.Common

/-! A log of grants of which at most a limit may be younger than a window. -/

namespace SlidingWindow
variable {T : Type*} [AddCommGroup T] [LinearOrder T]

/-- What an attempt gets: a grant, a time to wait, or an error. -/
inductive Answer (T : Type*) where
  | granted
  | wait (time : T)
  | failed
  deriving DecidableEq

variable (window : T) (limit : Nat)

/-- The grants that are younger than the window. -/
def recent (now : T) (log : List T) : List T := log.filter (now - window < ·)

/-- An attempt is granted below the limit, and waits for the oldest recent grant to leave the window. -/
def answer (now : T) (log : List T) : Answer T :=
  if (recent window now log).length < limit then .granted
  else
    match (recent window now log).min? with
    | none => .failed
    | some oldest => .wait (oldest + window - now)

def record (now : T) (log : List T) : List T := if answer window limit now log = .granted then now :: log else log

/-- Attempts one after another, each with its answer. -/
def trace : List T → List T → List (T × Answer T)
  | _, [] => []
  | log, now :: rest => (now, answer window limit now log) :: trace (record window limit now log) rest

variable {window limit} {now : T} {log : List T}

theorem answer_granted : answer window limit now log = .granted ↔ (recent window now log).length < limit := by
  unfold answer
  split
  · simp [*]
  · split <;> simp [*]

/-- What an attempt that is not granted is told. -/
theorem answer_wait {time : T} (h : answer window limit now log = .wait time) :
    limit ≤ (recent window now log).length ∧ ∃ oldest ∈ recent window now log, time = oldest + window - now := by
  unfold answer at h
  split at h
  · cases h
  · next hfull =>
    split at h
    · cases h
    · next oldest holdest =>
      cases h
      exact ⟨not_lt.mp hfull, oldest, (List.min?_eq_some_iff.mp holdest).1, rfl⟩

/-- An attempt fails only where nothing is allowed. -/
theorem answer_failed (h : answer window limit now log = .failed) : limit = 0 := by
  unfold answer at h
  split at h
  · cases h
  · next hfull =>
    split at h
    · next hnone =>
      rw [List.min?_eq_none_iff.mp hnone, List.length_nil, not_lt] at hfull
      exact Nat.le_zero.mp hfull
    · cases h

/-- A log, the newest grant first, each of which found room. -/
inductive Allowed (window : T) (limit : Nat) : List T → Prop
  | nil : Allowed window limit []
  | cons {now : T} {log : List T} (hlater : ∀ g ∈ log, g ≤ now) (hroom : (recent window now log).length < limit)
      (hlog : Allowed window limit log) : Allowed window limit (now :: log)

theorem allowed_record (hlater : ∀ g ∈ log, g ≤ now) (h : Allowed window limit log) :
    Allowed window limit (record window limit now log) := by
  unfold record
  split
  · next hgranted => exact .cons hlater (answer_granted.mp hgranted) h
  · exact h

theorem record_le (hlater : ∀ g ∈ log, g ≤ now) : ∀ g ∈ record window limit now log, g ≤ now := by
  unfold record
  split
  · exact List.forall_mem_cons.mpr ⟨le_rfl, hlater⟩
  · exact hlater

variable [IsOrderedAddMonoid T]

theorem recent_recent {later : T} (h : now ≤ later) :
    recent window later (recent window now log) = recent window later log := by
  unfold recent
  rw [List.filter_filter]
  refine List.filter_congr fun g _ => ?_
  have himp : later - window < g → now - window < g := (sub_le_sub_right h window).trans_lt
  simpa using himp

/-- Grants that are pairwise closer than the window are at most the limit. -/
theorem Allowed.countP_le (h : Allowed window limit log) {p : T → Bool} :
    (∀ g ∈ log, ∀ g' ∈ log, p g → p g' → g' - g < window) → log.countP p ≤ limit := by
  induction h with
  | nil => exact fun _ => Nat.zero_le _
  | @cons now log hlater hroom hlog ih =>
    intro hclose
    by_cases hp : p now = true
    · have hrecent : log.countP p ≤ (recent window now log).length := by
        rw [recent, ← List.countP_eq_length_filter]
        refine List.countP_mono_left fun g hg hpg => decide_eq_true ?_
        exact sub_lt_comm.mp (hclose g (List.mem_cons_of_mem _ hg) now List.mem_cons_self hpg hp)
      rw [List.countP_cons_of_pos hp]
      exact hrecent.trans_lt hroom
    · rw [List.countP_cons_of_neg hp]
      exact ih fun g hg g' hg' => hclose g (List.mem_cons_of_mem _ hg) g' (List.mem_cons_of_mem _ hg')

/-- At most the limit is recent, also at a later time. -/
theorem Allowed.recent_le (h : Allowed window limit log) {later : T} (hlater : ∀ g ∈ log, g ≤ later) :
    (recent window later log).length ≤ limit := by
  rw [recent, ← List.countP_eq_length_filter]
  refine h.countP_le fun g hg g' hg' hp _ => ?_
  exact (sub_le_sub_right (hlater g' hg') g).trans_lt (sub_lt_comm.mp (of_decide_eq_true hp))

/-- A wait is positive, and it is over when the oldest recent grant has left the window. -/
theorem wait_pos {time : T} (h : answer window limit now log = .wait time) : 0 < time := by
  obtain ⟨-, oldest, holdest, rfl⟩ := answer_wait h
  have hyoung : now - window < oldest := of_decide_eq_true (List.mem_filter.mp holdest).2
  exact sub_pos.mpr (sub_lt_iff_lt_add.mp hyoung)

theorem granted_after_wait (hlog : Allowed window limit log) (hpast : ∀ g ∈ log, g ≤ now) {time later : T}
    (h : answer window limit now log = .wait time) (hlater : now + time ≤ later) :
    answer window limit later log = .granted := by
  obtain ⟨-, oldest, holdest, rfl⟩ := answer_wait h
  obtain ⟨hmem, hyoung⟩ := List.mem_filter.mp holdest
  have hout : oldest ≤ later - window := by
    rw [add_sub_cancel] at hlater
    exact le_sub_iff_add_le.mpr hlater
  have hnow : now ≤ later := le_of_add_le_of_nonneg_left hlater (wait_pos h).le
  rw [answer_granted, ← recent_recent hnow]
  refine lt_of_lt_of_le ?_ (hlog.recent_le hpast)
  exact List.length_filter_lt_length_iff_exists.mpr ⟨oldest, holdest, by simpa using hout⟩

/-! ### Traces -/

/-- The times of the grants of a trace. -/
def grants (tr : List (T × Answer T)) : List T := (tr.filter fun x => x.2 = .granted).map Prod.fst

/-- What a limit promises of a trace: no half-open window holds more grants, and an attempt that has to wait is granted after
    its wait unless another one is granted before. -/
structure Keeps (window : T) (limit : Nat) (tr : List (T × Answer T)) : Prop where
  closed_open : ∀ first, (grants tr).countP (fun g => first ≤ g ∧ g < first + window) ≤ limit
  open_closed : ∀ first, (grants tr).countP (fun g => first < g ∧ g ≤ first + window) ≤ limit
  answered : ∀ x ∈ tr, x.2 = .failed → limit = 0
  waits : ∀ x ∈ tr, ∀ time, x.2 = .wait time → 0 < time
  retried : ∀ before now time mid later answer after,
    tr = before ++ (now, .wait time) :: mid ++ (later, answer) :: after →
      (∀ x ∈ mid, x.2 ≠ .granted) → now + time ≤ later → answer = .granted

omit [IsOrderedAddMonoid T]

/-- A log and the attempts that come after it. -/
structure Ready (window : T) (limit : Nat) (log attempts : List T) : Prop where
  allowed : Allowed window limit log
  sorted : attempts.Pairwise (· ≤ ·)
  later : ∀ g ∈ log, ∀ t ∈ attempts, g ≤ t

theorem Ready.step {attempts : List T} (h : Ready window limit log (now :: attempts)) :
    Ready window limit (record window limit now log) attempts := by
  have hpast : ∀ g ∈ log, g ≤ now := fun g hg => h.later g hg now List.mem_cons_self
  obtain ⟨hnow, hsorted⟩ := List.pairwise_cons.mp h.sorted
  exact ⟨allowed_record hpast h.allowed, hsorted, fun g hg t ht => (record_le hpast g hg).trans (hnow t ht)⟩

/-- What is left of a trace is the trace of what is left, with the same log if nothing was granted. -/
theorem Ready.drop {before tr : List (T × Answer T)} :
    ∀ {log attempts : List T}, Ready window limit log attempts → trace window limit log attempts = before ++ tr →
      ∃ log' attempts', Ready window limit log' attempts' ∧ trace window limit log' attempts' = tr ∧
        ((∀ x ∈ before, x.2 ≠ .granted) → log' = log) := by
  induction before with
  | nil => exact fun {log attempts} h htr => ⟨log, attempts, h, htr, fun _ => rfl⟩
  | cons x before ih =>
    intro log attempts h htr
    cases attempts with
    | nil => cases htr
    | cons now attempts =>
      obtain ⟨rfl, hrest⟩ := List.cons.inj htr
      obtain ⟨log', attempts', hready, htr', hsame⟩ := ih h.step hrest
      refine ⟨log', attempts', hready, htr', fun hnone => ?_⟩
      rw [hsame fun x hx => hnone x (List.mem_cons_of_mem _ hx), record, if_neg (hnone _ List.mem_cons_self)]

/-- The grants of a trace are what it adds to the log. -/
theorem Ready.allowed_grants {log attempts : List T} (h : Ready window limit log attempts) :
    Allowed window limit ((grants (trace window limit log attempts)).reverse ++ log) := by
  induction attempts generalizing log with
  | nil => exact h.allowed
  | cons now attempts ih =>
    have hrest := ih h.step
    unfold record at hrest
    by_cases hgranted : answer window limit now log = .granted
    · rw [if_pos hgranted] at hrest
      simpa [grants, trace, record, hgranted] using hrest
    · rw [if_neg hgranted] at hrest
      simpa [grants, trace, record, hgranted] using hrest

variable [IsOrderedAddMonoid T]

theorem Ready.grants_countP_le {attempts : List T} (h : Ready window limit [] attempts) {p : T → Bool}
    (hclose : ∀ g g', p g → p g' → g' - g < window) : (grants (trace window limit [] attempts)).countP p ≤ limit := by
  have hcount := h.allowed_grants.countP_le (p := p) fun g _ g' _ => hclose g g'
  rwa [List.append_nil, List.countP_reverse] at hcount

theorem Ready.waits {log attempts : List T} (h : Ready window limit log attempts) {x : T × Answer T}
    (hx : x ∈ trace window limit log attempts) :
    (x.2 = .failed → limit = 0) ∧ ∀ time, x.2 = .wait time → 0 < time := by
  obtain ⟨before, after, htr⟩ := List.append_of_mem hx
  obtain ⟨log', attempts', -, htr', -⟩ := h.drop htr
  cases attempts' with
  | nil => cases htr'
  | cons now attempts' =>
    obtain ⟨rfl, -⟩ := List.cons.inj htr'
    exact ⟨answer_failed, fun time => wait_pos⟩

/-- A log that starts empty keeps its limit. -/
theorem keeps_trace {attempts : List T} (hsorted : attempts.Pairwise (· ≤ ·)) :
    Keeps window limit (trace window limit [] attempts) := by
  have hready : Ready window limit [] attempts := ⟨.nil, hsorted, by simp⟩
  refine ⟨fun first => hready.grants_countP_le fun g g' hg hg' => ?_, fun first => hready.grants_countP_le fun g g' hg hg' => ?_,
    fun x hx => (hready.waits hx).1, fun x hx => (hready.waits hx).2, ?_⟩
  · obtain ⟨hfirst, -⟩ := of_decide_eq_true hg
    obtain ⟨-, hlast⟩ := of_decide_eq_true hg'
    exact sub_lt_iff_lt_add'.mpr (hlast.trans_le (add_le_add_left hfirst window))
  · obtain ⟨hfirst, -⟩ := of_decide_eq_true hg
    obtain ⟨-, hlast⟩ := of_decide_eq_true hg'
    exact sub_lt_iff_lt_add'.mpr (hlast.trans_lt (add_lt_add_left hfirst window))
  · intro before now time mid later answer after htr hnone hlater
    rw [List.append_assoc] at htr
    obtain ⟨log, attempts', hready, htr', -⟩ := hready.drop htr
    cases attempts' with
    | nil => cases htr'
    | cons now' attempts' =>
      obtain ⟨hnow, hrest⟩ := List.cons.inj htr'
      obtain ⟨rfl, hwait⟩ : now' = now ∧ SlidingWindow.answer window limit now' log = .wait time := Prod.mk.inj hnow
      obtain ⟨log', attempts'', -, hrest', hsame⟩ := hready.step.drop hrest
      cases attempts'' with
      | nil => cases hrest'
      | cons later' attempts'' =>
        obtain ⟨hlast, -⟩ := List.cons.inj hrest'
        obtain ⟨rfl, rfl⟩ := Prod.ext_iff.mp hlast
        have hlog : record window limit now' log = log := if_neg (by simp [hwait])
        rw [hsame hnone, hlog]
        exact granted_after_wait hready.allowed (fun g hg => hready.later g hg now' List.mem_cons_self) hwait hlater

end SlidingWindow
