import AsymmetricCommittee.Lib.Program
import Mathlib.Algebra.Order.Group.Defs
import Mathlib.Algebra.BigOperators.Group.List.Basic
import Mathlib.Tactic.Abel

/-! Calls that share a budget. Each call looks whether the ceiling is reached, sends its query, and charges what the reply
    costs. These are steps of their own, and the steps of any number of calls are interleaved. -/

namespace AsymmetricCommittee

/-- What a call does: look whether the ceiling is reached, send a query, or charge an amount. -/
inductive SpendingCall (Q K : Type) where
  | exceeded
  | send (query : Q)
  | charge (amount : K)

/-- A charge is answered by whether the ceiling is reached then. -/
@[reducible] def spending (Q R K : Type) : Interface where
  Call := SpendingCall Q K
  Reply
    | .exceeded => Bool
    | .send _ => R
    | .charge _ => Bool

/-- What was spent, the calls at work, and which call was given which reply. -/
structure Spenders (Q R K α : Type) where
  spent : K
  calls : List (Program (spending Q R K) α)
  replies : List (Nat × R)

namespace Spenders
variable {Q R K α : Type}

section Turns
variable [Add K] [LinearOrder K]

/-- The next step of a call; `r` is the reply if it sends a query. -/
def turn (ceiling : K) (s : Spenders Q R K α) (i : Nat) (r : R) : Spenders Q R K α :=
  match s.calls[i]? with
  | some (.call .exceeded next) => { s with calls := s.calls.set i (next (ceiling ≤ s.spent : Bool)) }
  | some (.call (.send _) next) => { s with calls := s.calls.set i (next r), replies := s.replies ++ [(i, r)] }
  | some (.call (.charge amount) next) =>
    { s with spent := s.spent + amount, calls := s.calls.set i (next (ceiling ≤ s.spent + amount : Bool)) }
  | _ => s

def run (ceiling : K) (s : Spenders Q R K α) (turns : List (Nat × R)) : Spenders Q R K α :=
  turns.foldl (fun s t => s.turn ceiling t.1 t.2) s

end Turns

/-! ### How a call pays -/

/-- The call was told that the ceiling is not reached, and sends next. -/
def cleared : Program (spending Q R K) α → Bool
  | .call (.send _) _ => true
  | _ => false

section Group
variable [AddCommGroup K] [LinearOrder K]

/-- What the call was sent a reply for and charges next. -/
def owed : Program (spending Q R K) α → K
  | .call (.charge amount) _ => amount
  | _ => 0

/-- The call sends only where it looked last and the ceiling was not reached, and charges the price of each reply before
    anything else. -/
def Pays (price : R → Option K) : Program (spending Q R K) α → Prop
  | .done _ => True
  | .call .exceeded next => (∀ b : Bool, Pays price (next b) ∧ owed (next b) = 0) ∧ cleared (next true) = false
  | .call (.send _) next =>
    ∀ r : R, Pays price (next r) ∧ cleared (next r) = false ∧ owed (next r) = (price r).getD 0
  | .call (.charge amount) next =>
    0 ≤ amount ∧ ∀ b : Bool, Pays price (next b) ∧ cleared (next b) = false ∧ owed (next b) = 0

/-- What the calls owe altogether. -/
def owing (s : Spenders Q R K α) : K := (s.calls.map owed).sum

/-- What the replies cost; a reply without a price costs nothing. -/
def cost (price : Nat → R → Option K) (replies : List (Nat × R)) : K :=
  (replies.map fun x => (price x.1 x.2).getD 0).sum

/-- What was spent and is owed, less what the replies cost. -/
def balance (price : Nat → R → Option K) (s : Spenders Q R K α) : K := s.spent + s.owing - cost price s.replies

/-- Every call pays the prices of its replies. -/
def Paying (price : Nat → R → Option K) (s : Spenders Q R K α) : Prop :=
  ∀ i p, s.calls[i]? = some p → Pays (price i) p

omit [LinearOrder K] in
theorem cost_append (price : Nat → R → Option K) (replies : List (Nat × R)) (i : Nat) (r : R) :
    cost price (replies ++ [(i, r)]) = cost price replies + (price i r).getD 0 := by
  simp [cost]

omit [LinearOrder K] in
theorem sum_map_set {β : Type} (f : β → K) {l : List β} {i : Nat} {p q : β} (h : l[i]? = some p) :
    ((l.set i q).map f).sum + f p = (l.map f).sum + f q := by
  induction l generalizing i with
  | nil => cases h
  | cons x l ih =>
    cases i with
    | zero =>
      obtain rfl : x = p := by simpa using h
      simp only [List.set_cons_zero, List.map_cons, List.sum_cons]
      abel
    | succ i =>
      have hrest := ih (by simpa using h)
      simp only [List.set_cons_succ, List.map_cons, List.sum_cons]
      rw [add_assoc, hrest, add_assoc]

/-! ### One step -/

variable {ceiling : K} {price : Nat → R → Option K} {s s' : Spenders Q R K α} {i : Nat} {r : R}

/-- What one step of call `i` does. -/
structure Turned (ceiling : K) (price : Nat → R → Option K) (s s' : Spenders Q R K α) (i : Nat) : Prop where
  paying : Paying price s'
  balance : balance price s' = balance price s
  spends : s.spent ≤ s'.spent
  others : ∀ j, j ≠ i → s'.calls[j]? = s.calls[j]?
  sends : s'.replies = s.replies ∨ ∃ r p p', s'.replies = s.replies ++ [(i, r)] ∧ s.calls[i]? = some p ∧
    cleared p = true ∧ s'.calls[i]? = some p' ∧ cleared p' = false
  clears : ∀ p', s'.calls[i]? = some p' → cleared p' = true → ceiling ≤ s.spent →
    ∃ p, s.calls[i]? = some p ∧ cleared p = true

theorem Paying.set (h : Paying price s) {p' : Program (spending Q R K) α} (hp : Pays (price i) p') {spent : K}
    {replies : List (Nat × R)} : Paying price ⟨spent, s.calls.set i p', replies⟩ := by
  intro j q hq
  rw [List.getElem?_set] at hq
  split at hq
  · next hij =>
    split at hq
    · cases hq
      exact hij ▸ hp
    · cases hq
  · exact h j q hq

variable [IsOrderedAddMonoid K]

theorem turned (ceiling : K) (i : Nat) (h : Paying price s) (r : R) : Turned ceiling price s (s.turn ceiling i r) i := by
  have hothers (p' : Program (spending Q R K) α) (j : Nat) (hj : j ≠ i) : (s.calls.set i p')[j]? = s.calls[j]? := by
    rw [List.getElem?_set_ne (Ne.symm hj)]
  unfold turn
  split
  · next next hp =>
    obtain ⟨hnext, htrue⟩ := h i _ hp
    have hself (q : Program (spending Q R K) α) : (s.calls.set i q)[i]? = some q := by
      rw [List.getElem?_set_self (List.getElem?_eq_some_iff.mp hp).1]
    refine ⟨h.set (hnext _).1, ?_, le_rfl, hothers _, .inl rfl, fun p' hp' hcleared hle => ?_⟩
    · have hsum := sum_map_set owed hp (q := next (ceiling ≤ s.spent : Bool))
      rw [(hnext _).2, show owed (.call .exceeded next : Program (spending Q R K) α) = 0 from rfl, add_zero, add_zero] at hsum
      rw [balance, balance, owing, owing, hsum]
    · obtain rfl := Option.some.inj ((hself _).symm.trans hp')
      rw [decide_eq_true hle, htrue] at hcleared
      cases hcleared
  · next query next hp =>
    obtain ⟨hpays, hnot, howed⟩ := h i _ hp r
    have hself (q : Program (spending Q R K) α) : (s.calls.set i q)[i]? = some q := by
      rw [List.getElem?_set_self (List.getElem?_eq_some_iff.mp hp).1]
    refine ⟨h.set hpays, ?_, le_rfl, hothers _, .inr ⟨r, _, next r, rfl, hp, rfl, hself _, hnot⟩, fun _ _ _ _ => ⟨_, hp, rfl⟩⟩
    have hsum := sum_map_set owed hp (q := next r)
    rw [howed, show owed (.call (.send query) next : Program (spending Q R K) α) = 0 from rfl, add_zero] at hsum
    rw [balance, balance, owing, owing, cost_append, hsum]
    abel
  · next amount next hp =>
    obtain ⟨hnonneg, hnext⟩ := h i _ hp
    have hself (q : Program (spending Q R K) α) : (s.calls.set i q)[i]? = some q := by
      rw [List.getElem?_set_self (List.getElem?_eq_some_iff.mp hp).1]
    refine ⟨h.set (hnext _).1, ?_, le_add_of_nonneg_right hnonneg, hothers _, .inl rfl, fun p' hp' hcleared _ => ?_⟩
    · have hsum := sum_map_set owed hp (q := next (ceiling ≤ s.spent + amount : Bool))
      rw [(hnext _).2.2, show owed (.call (.charge amount) next : Program (spending Q R K) α) = amount from rfl, add_zero] at hsum
      rw [balance, balance, owing, owing, ← hsum]
      dsimp only
      abel
    · obtain rfl := Option.some.inj ((hself _).symm.trans hp')
      rw [(hnext _).2.1] at hcleared
      cases hcleared
  · exact ⟨h, rfl, le_rfl, fun _ _ => rfl, .inl rfl, fun p' hp' hcleared _ => ⟨p', hp', hcleared⟩⟩

/-! ### Runs -/

omit [IsOrderedAddMonoid K] in
theorem run_cons (ceiling : K) (s : Spenders Q R K α) (t : Nat × R) (turns : List (Nat × R)) :
    s.run ceiling (t :: turns) = (s.turn ceiling t.1 t.2).run ceiling turns := rfl

theorem Paying.run (h : Paying price s) (turns : List (Nat × R)) : Paying price (s.run ceiling turns) := by
  induction turns generalizing s with
  | nil => exact h
  | cons t turns ih => exact ih (turned ceiling t.1 h t.2).paying

/-- What was spent and what is owed grow by what the replies cost. -/
theorem balance_run (ceiling : K) (h : Paying price s) (turns : List (Nat × R)) :
    balance price (s.run ceiling turns) = balance price s := by
  induction turns generalizing s with
  | nil => rfl
  | cons t turns ih =>
    have hturn := turned ceiling t.1 h t.2
    exact (ih hturn.paying).trans hturn.balance

/-- Once the ceiling is reached, only the calls that are past their check send, and each of them once. -/
theorem run_sends (h : Paying price s) (hceiling : ceiling ≤ s.spent) (turns : List (Nat × R)) :
    ∃ later, (s.run ceiling turns).replies = s.replies ++ later ∧ (later.map Prod.fst).Nodup ∧
      ∀ x ∈ later, ∃ p, s.calls[x.1]? = some p ∧ cleared p = true := by
  induction turns generalizing s with
  | nil => exact ⟨[], (List.append_nil _).symm, List.nodup_nil, by simp⟩
  | cons t turns ih =>
    have hturn := turned ceiling t.1 h t.2
    obtain ⟨later, hlater, hnodup, hall⟩ := ih hturn.paying (hceiling.trans hturn.spends)
    have hbefore : ∀ x ∈ later, ∃ p, s.calls[x.1]? = some p ∧ cleared p = true := by
      intro x hx
      obtain ⟨p, hp, hcleared⟩ := hall x hx
      by_cases hi : x.1 = t.1
      · rw [hi] at hp ⊢
        exact hturn.clears p hp hcleared hceiling
      · exact ⟨p, (hturn.others x.1 hi).symm.trans hp, hcleared⟩
    rw [run_cons, hlater]
    rcases hturn.sends with hsame | ⟨r, p, p', hsent, hp, hcleared, hp', hdone⟩
    · exact ⟨later, by rw [hsame], hnodup, hbefore⟩
    · refine ⟨(t.1, r) :: later, by rw [hsent, List.append_assoc]; rfl, List.nodup_cons.mpr ⟨?_, hnodup⟩, ?_⟩
      · intro hmem
        obtain ⟨x, hx, hi⟩ := List.mem_map.mp hmem
        obtain ⟨q, hq, hqcleared⟩ := hall x hx
        rw [hi, hp'] at hq
        cases hq
        rw [hdone] at hqcleared
        cases hqcleared
      · intro x hx
        rcases List.mem_cons.mp hx with rfl | hx
        · exact ⟨p, hp, hcleared⟩
        · exact hbefore x hx

end Group
end Spenders
end AsymmetricCommittee
