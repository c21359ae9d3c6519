import AsymmetricCommittee.Orchestration.ExecutionStage
import AsymmetricCommittee.Contracts.Samples
import Mathlib.Algebra.Order.Floor.Ring
import Mathlib.Tactic.Linarith
import Mathlib.Data.Rat.Floor
import Mathlib.Tactic.Ring

/-! The plan and the book. A target is planned for each security and applied to the position of its ticker: the position
    ends at the shares that the book is due of the one security with that ticker. Where several securities of the view
    carry one ticker, what is held is planned away once for each of them. -/

namespace AsymmetricCommittee
namespace ExecutionStage
open Executor

/-! ### Rounding half to even -/

section Rounding
variable {K : Type} [Field K] [LinearOrder K]

local instance half_atLeastTwo : Nat.AtLeastTwo 2 := inferInstance

/-- `n` is nearest to `x`, and even if it is not the only one. -/
def NearestEven (x : K) (n : Int) : Prop := |x - n| ≤ 1 / 2 ∧ (|x - n| = 1 / 2 → n % 2 = 0)

variable [IsStrictOrderedRing K]

theorem NearestEven.unique {x : K} {m n : Int} (hm : NearestEven x m) (hn : NearestEven x n) : m = n := by
  -- two nearest integers that differ are neighbours, half a unit away each, and both even
  have key : ∀ {m n : Int}, NearestEven x m → NearestEven x n → ¬m < n := by
    intro m n hm hn hlt
    have hcast : (m : K) + 1 ≤ n := by exact_mod_cast hlt
    have hmx := (abs_le.mp hm.1).2
    have hnx := (abs_le.mp hn.1).1
    have hm' : x - m = 1 / 2 := by linarith
    have hn' : x - n = -(1 / 2) := by linarith
    have hnext : n = m + 1 := by
      have : (n : K) = ((m + 1 : Int) : K) := by push_cast; linarith
      exact_mod_cast this
    have hmeven := hm.2 (by rw [hm', abs_of_pos (by norm_num)])
    have hneven := hn.2 (by rw [hn', abs_neg, abs_of_pos (by norm_num)])
    omega
  rcases lt_trichotomy m n with h | h | h
  · exact absurd h (key hm hn)
  · exact h
  · exact absurd h (key hn hm)

variable [FloorRing K]

theorem nearestEven_roundHalfEven (x : K) : NearestEven x (roundHalfEven x) := by
  have hlo := Int.floor_le x
  have hhi := Int.lt_floor_add_one x
  have hnext : ((⌊x⌋ + 1 : Int) : K) = ⌊x⌋ + 1 := by push_cast; rfl
  have habs : |x - ⌊x⌋| = x - ⌊x⌋ := abs_of_nonneg (by linarith)
  have habs' : |x - ((⌊x⌋ + 1 : Int) : K)| = ⌊x⌋ + 1 - x := by
    rw [hnext, abs_of_nonpos (by linarith)]
    ring
  unfold roundHalfEven
  split_ifs with hdown hup heven
  · refine ⟨by rw [habs]; exact hdown.le, fun h => ?_⟩
    rw [habs] at h
    exact absurd h hdown.ne
  · refine ⟨by rw [habs']; linarith, fun h => ?_⟩
    rw [habs'] at h
    linarith
  · exact ⟨by rw [habs]; linarith, fun _ => heven⟩
  · exact ⟨by rw [habs']; linarith, fun _ => by omega⟩

/-- Taking a value from a whole number takes its rounding. -/
theorem round6_sub (n : Int) (x : K) : round6 ((n : K) - x) = n - round6 x := by
  have hnear := nearestEven_roundHalfEven (x * 1000000)
  have hcast : ((n : K) - x) * 1000000 - ((n * 1000000 - roundHalfEven (x * 1000000) : Int) : K) =
      -(x * 1000000 - roundHalfEven (x * 1000000)) := by
    push_cast
    ring
  have hround : roundHalfEven (((n : K) - x) * 1000000) = n * 1000000 - roundHalfEven (x * 1000000) := by
    refine (nearestEven_roundHalfEven _).unique ⟨?_, ?_⟩
    · rw [hcast, abs_neg]
      exact hnear.1
    · rw [hcast, abs_neg]
      intro h
      have := hnear.2 h
      omega
  rw [round6, round6, hround]
  push_cast
  field_simp

/-- The tolerance of a rounding to six decimals. -/
def halfUnit (K : Type) [Field K] : K := 1 / 2000000

/-- A value is within the tolerance of whole units from its rounding only if there are none of them. -/
theorem abs_sub_round6_add (x : K) (D : Int) (k : Int) :
    |x - round6 x + (D - k * round6 x)| ≤ halfUnit K ↔ (D : K) = k * round6 x := by
  obtain ⟨hle, heven⟩ := nearestEven_roundHalfEven (x * 1000000)
  set R := roundHalfEven (x * 1000000)
  have hround : round6 x = (R : K) / 1000000 := rfl
  have hscale : x - round6 x = (x * 1000000 - R) / 1000000 := by
    rw [hround]
    field_simp
  have hunits : (D : K) - k * round6 x = ((D * 1000000 - k * R : Int) : K) / 1000000 := by
    rw [hround]
    push_cast
    field_simp
  have hzero : (D : K) = k * round6 x ↔ D * 1000000 - k * R = 0 := by
    rw [← sub_eq_zero, hunits, div_eq_zero_iff]
    constructor
    · rintro (h | h)
      · exact_mod_cast h
      · norm_num at h
    · intro h
      exact .inl (by exact_mod_cast h)
  have hsum : x - round6 x + (D - k * round6 x) = (x * 1000000 - R + ((D * 1000000 - k * R : Int) : K)) / 1000000 := by
    rw [hscale, hunits]
    ring
  have htol : |x - round6 x + (D - k * round6 x)| ≤ halfUnit K ↔ |x * 1000000 - R + ((D * 1000000 - k * R : Int) : K)| ≤ 1 / 2 := by
    rw [hsum, abs_div, abs_of_pos (by norm_num : (0 : K) < 1000000), div_le_iff₀ (by norm_num), halfUnit]
    norm_num
  rw [htol, hzero]
  set z := D * 1000000 - k * R with hz
  constructor
  · intro h
    -- the sum is nearest to the rounding shifted by `-z`, so that is the rounding itself
    have hnear : NearestEven (x * 1000000) (R - z) := by
      have heq : x * 1000000 - ((R - z : Int) : K) = x * 1000000 - R + (z : K) := by
        push_cast
        ring
      refine ⟨by rw [heq]; exact h, fun htie => ?_⟩
      -- a tie of the sum is a tie of the value itself, whose rounding is even then
      rw [heq] at htie
      obtain ⟨hlo, hhi⟩ := abs_le.mp hle
      have hself : |x * 1000000 - R| = 1 / 2 := by
        rcases (abs_eq (by norm_num)).mp htie with htie | htie
        · have hz0 : (0 : K) ≤ z := by linarith
          have hz1 : (z : K) ≤ 1 := by linarith
          have hcases : z = 0 ∨ z = 1 := by
            have : 0 ≤ z := by exact_mod_cast hz0
            have : z ≤ 1 := by exact_mod_cast hz1
            omega
          rcases hcases with hz | hz
          · rw [hz, Int.cast_zero, add_zero] at htie
            rw [htie, abs_of_pos (by norm_num)]
          · rw [hz, Int.cast_one] at htie
            rw [show x * 1000000 - R = -(1 / 2) by linarith, abs_neg, abs_of_pos (by norm_num)]
        · have hz0 : (-1 : K) ≤ z := by linarith
          have hz1 : (z : K) ≤ 0 := by linarith
          have hcases : z = 0 ∨ z = -1 := by
            have : -1 ≤ z := by exact_mod_cast hz0
            have : z ≤ 0 := by exact_mod_cast hz1
            omega
          rcases hcases with hz | hz
          · rw [hz, Int.cast_zero, add_zero] at htie
            rw [htie, abs_neg, abs_of_pos (by norm_num)]
          · rw [hz, Int.cast_neg, Int.cast_one] at htie
            rw [show x * 1000000 - R = 1 / 2 by linarith, abs_of_pos (by norm_num)]
      have hR : 2 ∣ R := Int.dvd_of_emod_eq_zero (heven hself)
      have hz2 : 2 ∣ z := hz ▸ Dvd.dvd.sub (Dvd.dvd.mul_left (by norm_num) D) (Dvd.dvd.mul_left hR k)
      omega
    have := hnear.unique ⟨hle, heven⟩
    omega
  · intro h
    rw [h, Int.cast_zero, add_zero]
    exact hle

theorem round6_zero : round6 (0 : K) = 0 := by
  have h := round6_sub (K := K) 0 0
  rw [Int.cast_zero, sub_zero, zero_sub] at h
  linarith

end Rounding

/-! ### What a plan does to a position -/

section Plan
variable {K : Type} [Field K] [LinearOrder K]

/-- The weight of a security in the book; one that is not in it has none. -/
def weightOf (book : ProposedBook K) (sid : SecurityId) : K :=
  (book.positions.find? fun p => p.securityId = sid).elim 0 fun p => p.targetWeight.val

/-- The price of a security, if it is usable. -/
def priceOf (view : MarketView K) (sid : SecurityId) : Option K := (view.decisionPrices sid).filter fun price => 0 < price

/-- The shares that are held of a ticker. -/
def heldOf (positions : Dict String K) (symbol : String) : K := (positions.get? symbol).getD 0

/-- The securities of the view with a ticker. -/
def carriers (view : MarketView K) (symbol : String) : List SecurityId :=
  (view.symbols.entries.filter fun e => decide (e.2 = symbol)).map Prod.fst

/-- What a target adds to the position. -/
def signed (t : ExecutionTarget K) : K := if t.side = .buy then t.qty else -t.qty

/-- The position of a ticker once all targets are applied. -/
def after (positions : Dict String K) (ts : List (ExecutionTarget K)) (symbol : String) : K :=
  heldOf positions symbol + ((ts.filter fun t => decide (t.symbol = symbol)).map signed).sum

variable [FloorRing K]

/-- The whole shares that the book is due of a security. -/
def due (book : ProposedBook K) (view : MarketView K) (equity : K) (sid : SecurityId) : Int :=
  match priceOf view sid with
  | none => 0
  | some price => if 0 < weightOf book sid then ⌊weightOf book sid * equity / price⌋ else 0

variable [IsStrictOrderedRing K] {runId : UUID} {book : ProposedBook K} {view : MarketView K} {equity : K}
  {positions : Dict String K}

omit [IsStrictOrderedRing K] in
theorem planName_eq (name : SecurityId × String) : planName runId book view equity positions name =
    match priceOf view name.1 with
    | none => if 0 < weightOf book name.1 ∨ heldOf positions name.2 ≠ 0 then Except.error ExecError.plan else .ok none
    | some price =>
      let wanted : K := if 0 < weightOf book name.1 then (⌊weightOf book name.1 * equity / price⌋ : Int) else 0
      let delta := round6 (wanted - heldOf positions name.2)
      if delta = 0 then .ok none
      else .ok (some ⟨runId, name.1, name.2, if 0 < delta then .buy else .sell, |delta|, price⟩) := rfl

/-- One name is planned from the held shares of its ticker to the shares that it is due. -/
theorem planName_eq_ok {name : SecurityId × String} {planned : Option (ExecutionTarget K)}
    (h : planName runId book view equity positions name = .ok planned) :
    planned.elim 0 signed = round6 ((due book view equity name.1 : K) - heldOf positions name.2) ∧
      ∀ t ∈ planned, t.symbol = name.2 := by
  rw [planName_eq] at h
  unfold due
  cases hprice : priceOf view name.1 with
  | none =>
    rw [hprice] at h
    dsimp only at h ⊢
    split at h
    · cases h
    · next hflat =>
      cases h
      rw [not_or, not_not] at hflat
      refine ⟨?_, nofun⟩
      rw [hflat.2, Int.cast_zero, sub_zero, round6_zero]
      rfl
  | some price =>
    rw [hprice] at h
    dsimp only at h ⊢
    have hwanted : (if 0 < weightOf book name.1 then ((⌊weightOf book name.1 * equity / price⌋ : Int) : K) else 0) =
        ((if 0 < weightOf book name.1 then ⌊weightOf book name.1 * equity / price⌋ else 0 : Int) : K) := by
      split <;> simp
    rw [hwanted] at h
    generalize round6 (((if 0 < weightOf book name.1 then ⌊weightOf book name.1 * equity / price⌋ else 0 : Int) : K) -
      heldOf positions name.2) = delta at h ⊢
    split at h
    · next hzero =>
      cases h
      exact ⟨hzero.symm, nofun⟩
    · next hne =>
      cases h
      refine ⟨?_, fun t ht => by cases ht; rfl⟩
      dsimp only [Option.elim, signed]
      split
      · next hbuy => rw [if_pos rfl, abs_of_pos hbuy]
      · next hsell => rw [if_neg (by decide), abs_of_nonpos (not_lt.mp hsell), neg_neg]

/-- The plan of a list of names, summed over the targets of one ticker. -/
theorem sum_signed {names : List (SecurityId × String)} {planned : List (Option (ExecutionTarget K))}
    (h : List.Forall₂ (fun name o => planName runId book view equity positions name = .ok o) names planned) (symbol : String) :
    (((planned.filterMap id).filter fun t => decide (t.symbol = symbol)).map signed).sum =
      ((names.filter fun e => decide (e.2 = symbol)).map fun e => (due book view equity e.1 : K) - round6 (heldOf positions symbol)).sum := by
  induction h with
  | nil => rfl
  | @cons name o names planned ho _ ih =>
    obtain ⟨hsigned, hsymbol⟩ := planName_eq_ok ho
    rw [round6_sub] at hsigned
    cases o with
    | none =>
      rw [show (none :: planned).filterMap id = planned.filterMap id from rfl, ih, List.filter_cons]
      split
      · next heq =>
        rw [decide_eq_true_eq] at heq
        rw [heq] at hsigned
        rw [List.map_cons, List.sum_cons, ← hsigned, Option.elim, zero_add]
      · rfl
    | some t =>
      rw [show (some t :: planned).filterMap id = t :: planned.filterMap id from rfl, List.filter_cons, List.filter_cons, hsymbol t rfl]
      split
      · next heq =>
        rw [decide_eq_true_eq] at heq
        rw [heq] at hsigned
        rw [List.map_cons, List.map_cons, List.sum_cons, List.sum_cons, ih, ← hsigned, Option.elim]
      · exact ih

omit [IsStrictOrderedRing K] in
theorem planTargets_eq_ok {ts : List (ExecutionTarget K)} (h : planTargets runId book view equity positions = .ok ts) :
    0 < equity ∧ (∀ p ∈ book.positions, p.securityId ∈ view.symbols.keys) ∧
      ∃ planned, ts = planned.filterMap id ∧
        List.Forall₂ (fun name o => planName runId book view equity positions name = .ok o)
          (view.symbols.entries.insertionSort fun a b => a.1.val ≤ b.1.val) planned := by
  unfold planTargets at h
  split at h
  · cases h
  · next hequity =>
    split at h
    · cases h
    · next hknown =>
      obtain ⟨planned, hplanned, h⟩ := Except.bind_eq_ok.mp h
      cases h
      refine ⟨not_le.mp hequity, fun p hp => ?_, planned, rfl, Except.mapM_eq_ok.mp hplanned⟩
      by_contra hnot
      exact hknown (List.any_eq_true.mpr ⟨p, hp, by simpa using hnot⟩)

/-- The position of a ticker ends at what its securities are due, less the rounded holding once for each. -/
theorem after_eq {ts : List (ExecutionTarget K)} (h : planTargets runId book view equity positions = .ok ts) (symbol : String) :
    after positions ts symbol = heldOf positions symbol +
      ((carriers view symbol).map fun sid => (due book view equity sid : K) - round6 (heldOf positions symbol)).sum := by
  obtain ⟨-, -, planned, rfl, hplanned⟩ := planTargets_eq_ok h
  rw [after, sum_signed hplanned, carriers, List.map_map]
  have hperm := (List.perm_insertionSort (fun a b : SecurityId × String => a.1.val ≤ b.1.val) view.symbols.entries).filter
    fun e => decide (e.2 = symbol)
  exact congrArg _ (hperm.map _).sum_eq

/-! ### Reaching the book -/

omit [FloorRing K] [IsStrictOrderedRing K] in
theorem weightOf_mem {p : ProposedPosition K} (hp : p ∈ book.positions) : weightOf book p.securityId = p.targetWeight.val := by
  cases hfind : book.positions.find? fun q => decide (q.securityId = p.securityId) with
  | none => exact absurd (decide_eq_true rfl) (List.find?_eq_none.mp hfind p hp)
  | some q =>
    have hq := List.mem_of_find?_eq_some hfind
    have hid : q.securityId = p.securityId := by simpa using List.find?_some hfind
    rw [weightOf, hfind, List.inj_on_of_nodup_map book.ids_unique hq hp hid]
    rfl

omit [FloorRing K] [IsStrictOrderedRing K] in
theorem weightOf_notMem {sid : SecurityId} (h : ∀ p ∈ book.positions, p.securityId ≠ sid) : weightOf book sid = 0 := by
  rw [weightOf, List.find?_eq_none.mpr fun p hp hid => h p hp (of_decide_eq_true hid)]
  rfl

omit [IsStrictOrderedRing K] in
theorem due_notMem {sid : SecurityId} (h : ∀ p ∈ book.positions, p.securityId ≠ sid) : due book view equity sid = 0 := by
  rw [due, weightOf_notMem h]
  cases priceOf view sid with
  | none => rfl
  | some price => simp

/-- The other securities of the view with a ticker. -/
def others (view : MarketView K) (symbol : String) (sid : SecurityId) : List SecurityId := (carriers view symbol).erase sid

/-- The position of a ticker ends at what a security is due iff the others with the ticker are together due what is held,
    once for each of them. -/
theorem after_reaches_iff {ts : List (ExecutionTarget K)} (h : planTargets runId book view equity positions = .ok ts)
    {symbol : String} {sid : SecurityId} (hsid : sid ∈ carriers view symbol) :
    |after positions ts symbol - due book view equity sid| ≤ halfUnit K ↔
      ((((others view symbol sid).map (due book view equity)).sum : Int) : K) =
        (others view symbol sid).length * round6 (heldOf positions symbol) := by
  have hothers : ∀ l : List SecurityId, (l.map fun sid => (due book view equity sid : K) - round6 (heldOf positions symbol)).sum =
      ((l.map (due book view equity)).sum : Int) - l.length * round6 (heldOf positions symbol) := by
    intro l
    induction l with
    | nil => simp
    | cons a l ih =>
      rw [List.map_cons, List.sum_cons, ih, List.map_cons, List.sum_cons, List.length_cons]
      push_cast
      ring
  have hafter : after positions ts symbol - due book view equity sid = heldOf positions symbol - round6 (heldOf positions symbol) +
      ((((others view symbol sid).map (due book view equity)).sum : Int) -
        ((others view symbol sid).length : Int) * round6 (heldOf positions symbol)) := by
    rw [after_eq h, ((List.perm_cons_erase hsid).map _).sum_eq, List.map_cons, List.sum_cons,
      show (carriers view symbol).erase sid = others view symbol sid from rfl, hothers]
    push_cast
    ring
  rw [hafter, abs_sub_round6_add]
  push_cast
  rfl

/-- The targets bring the ticker to its place in the book: to the shares of every book name that carries it, to none if
    there is no such name. -/
structure Reaches (book : ProposedBook K) (view : MarketView K) (equity : K) (positions : Dict String K)
    (ts : List (ExecutionTarget K)) (symbol : String) : Prop where
  bought : ∀ p ∈ book.positions, p.securityId ∈ carriers view symbol →
    |after positions ts symbol - due book view equity p.securityId| ≤ halfUnit K
  sold : (∀ p ∈ book.positions, p.securityId ∉ carriers view symbol) → |after positions ts symbol| ≤ halfUnit K

/-- The ticker is planned once: the other names that carry it make up for what is planned away for them. -/
structure PlannedOnce (book : ProposedBook K) (view : MarketView K) (equity : K) (positions : Dict String K)
    (symbol : String) : Prop where
  inBook : ∀ p ∈ book.positions, p.securityId ∈ carriers view symbol →
    ((((others view symbol p.securityId).map (due book view equity)).sum : Int) : K) =
      (others view symbol p.securityId).length * round6 (heldOf positions symbol)
  outside : (∀ p ∈ book.positions, p.securityId ∉ carriers view symbol) →
    (carriers view symbol).length = 1 ∨ round6 (heldOf positions symbol) = 0

theorem reaches_iff {ts : List (ExecutionTarget K)} (h : planTargets runId book view equity positions = .ok ts)
    {symbol : String} (hsymbol : symbol ∈ view.symbols.values) :
    Reaches book view equity positions ts symbol ↔ PlannedOnce book view equity positions symbol := by
  obtain ⟨e, he, rfl⟩ := List.mem_map.mp hsymbol
  have hcarrier : e.1 ∈ carriers view e.2 :=
    List.mem_map.mpr ⟨e, List.mem_filter.mpr ⟨he, decide_eq_true rfl⟩, rfl⟩
  -- outside the book nothing is due of any name with the ticker
  have hsold : (∀ p ∈ book.positions, p.securityId ∉ carriers view e.2) →
      (|after positions ts e.2| ≤ halfUnit K ↔ (carriers view e.2).length = 1 ∨ round6 (heldOf positions e.2) = 0) := by
    intro hout
    have hzero : ∀ sid ∈ carriers view e.2, due book view equity sid = 0 := fun sid hsid =>
      due_notMem fun p hp heq => hout p hp (heq ▸ hsid)
    have hreach := after_reaches_iff h hcarrier
    have hlen : (others view e.2 e.1).length + 1 = (carriers view e.2).length := List.length_erase_add_one hcarrier
    have hsum : ((others view e.2 e.1).map (due book view equity)).sum = 0 := by
      refine List.sum_eq_zero fun n hn => ?_
      obtain ⟨sid, hsid, rfl⟩ := List.mem_map.mp hn
      exact hzero sid (List.mem_of_mem_erase hsid)
    rw [hzero e.1 hcarrier, hsum, Int.cast_zero, sub_zero, eq_comm, mul_eq_zero, Nat.cast_eq_zero] at hreach
    rw [hreach]
    refine or_congr_left ?_
    omega
  constructor
  · intro hr
    exact ⟨fun p hp hc => (after_reaches_iff h hc).mp (hr.bought p hp hc), fun hout => (hsold hout).mp (hr.sold hout)⟩
  · intro hp
    exact ⟨fun p hmem hc => (after_reaches_iff h hc).mpr (hp.inBook p hmem hc), fun hout => (hsold hout).mpr (hp.outside hout)⟩

/-! ### The notional -/

/-- The money in the planned shares of a security. -/
def notional (book : ProposedBook K) (view : MarketView K) (equity : K) (sid : SecurityId) : K :=
  due book view equity sid * (priceOf view sid).getD 0

theorem notional_le (hequity : 0 < equity) (sid : SecurityId) : notional book view equity sid ≤ weightOf book sid * equity := by
  have hweight : 0 ≤ weightOf book sid := by
    unfold weightOf
    cases book.positions.find? fun p => decide (p.securityId = sid) with
    | none => exact le_rfl
    | some p => exact p.targetWeight.property.1
  unfold notional due
  cases hprice : priceOf view sid with
  | none => simpa using mul_nonneg hweight hequity.le
  | some price =>
    have hpos : 0 < price := by
      have := Option.eq_some_of_filter_eq_some hprice
      rw [priceOf, this] at hprice
      simpa [Option.filter] using hprice
    dsimp only [Option.getD]
    split
    · calc ((⌊weightOf book sid * equity / price⌋ : Int) : K) * price
          ≤ weightOf book sid * equity / price * price := mul_le_mul_of_nonneg_right (Int.floor_le _) hpos.le
        _ = weightOf book sid * equity := div_mul_cancel₀ _ hpos.ne'
    · simpa using mul_nonneg hweight hequity.le

omit [FloorRing K] in
/-- The weights of distinct securities add up to the total of the positions at most. -/
theorem sum_weights_le {ps : List (ProposedPosition K)} (hps : (ps.map (·.securityId)).Nodup) {ids : List SecurityId}
    (hids : ids.Nodup) :
    (ids.map fun sid => (ps.find? fun p => decide (p.securityId = sid)).elim 0 fun p => p.targetWeight.val).sum ≤ grossExposure ps := by
  induction ps generalizing ids with
  | nil => simp [grossExposure]
  | cons p ps ih =>
    rw [List.map_cons, List.nodup_cons] at hps
    have hw : 0 ≤ p.targetWeight.val := p.targetWeight.property.1
    have hrest : ∀ l : List SecurityId, p.securityId ∉ l →
        (l.map fun sid => ((p :: ps).find? fun p => decide (p.securityId = sid)).elim 0 fun p => p.targetWeight.val) =
          l.map fun sid => (ps.find? fun p => decide (p.securityId = sid)).elim 0 fun p => p.targetWeight.val := by
      intro l hl
      refine List.map_congr_left fun sid hsid => ?_
      rw [List.find?_cons_of_neg]
      exact fun hd => hl ((of_decide_eq_true hd).symm ▸ hsid)
    have hgross : grossExposure (p :: ps) = p.targetWeight.val + grossExposure ps := by
      rw [grossExposure, List.map_cons, List.sum_cons, grossExposure]
    rw [hgross]
    by_cases hmem : p.securityId ∈ ids
    · have hfirst : (p :: ps).find? (fun q => decide (q.securityId = p.securityId)) = some p :=
        List.find?_cons_of_pos (decide_eq_true rfl)
      rw [((List.perm_cons_erase hmem).map _).sum_eq, List.map_cons, List.sum_cons, hrest _ (hids.not_mem_erase), hfirst]
      exact add_le_add le_rfl (ih hps.2 (hids.erase _))
    · rw [hrest ids hmem]
      exact (ih hps.2 hids).trans (le_add_of_nonneg_left hw)

/-- The money in the plan is within the book's gross weight of the equity. -/
theorem planned_notional_le (hequity : 0 < equity) :
    (view.symbols.keys.map (notional book view equity)).sum ≤ grossExposure book.positions * equity := by
  have hsum : (view.symbols.keys.map (notional book view equity)).sum ≤ (view.symbols.keys.map fun sid => weightOf book sid * equity).sum :=
    List.sum_le_sum fun sid _ => notional_le hequity sid
  rw [List.sum_map_mul_right] at hsum
  exact hsum.trans (mul_le_mul_of_nonneg_right (sum_weights_le book.ids_unique view.symbols.nodup) hequity.le)

/-- The plan reaches the book iff every ticker of the view is planned once; the planned money stays within the book. -/
theorem planTargets_reaches_iff {ts : List (ExecutionTarget K)} (h : planTargets runId book view equity positions = .ok ts) :
    ((∀ symbol ∈ view.symbols.values, Reaches book view equity positions ts symbol) ↔
      ∀ symbol ∈ view.symbols.values, PlannedOnce book view equity positions symbol) ∧
    (view.symbols.keys.map (notional book view equity)).sum ≤ grossExposure book.positions * equity :=
  ⟨forall₂_congr fun _ hsymbol => reaches_iff h hsymbol, planned_notional_le (planTargets_eq_ok h).1⟩

end Plan

/-! ### A ticker that two securities carry -/

def emptyBook : ProposedBook ℚ := ⟨⟨0⟩, ⟨0, 0⟩, [], List.nodup_nil, List.nodup_nil, Samples.empty_gross⟩

/-- A view of listed securities with one ticker, each priced at 100. -/
def sharedTicker (ids : Dict SecurityId String) : MarketView ℚ := ⟨ids, fun _ => some 100⟩

def listedOnce : Dict SecurityId String := Dict.empty.set ⟨1, Samples.one_securityId⟩ "A"

/-- A later security took over the ticker. -/
def listedTwice : Dict SecurityId String := listedOnce.set ⟨2, Samples.two_securityId⟩ "A"

def tenHeld : Dict String ℚ := Dict.empty.set "A" 10

def sellTen (sid : SecurityId) : ExecutionTarget ℚ := ⟨⟨0⟩, sid, "A", .sell, 10, 100⟩

theorem planTargets_reaches_once : Reaches emptyBook (sharedTicker listedOnce) 1000 tenHeld [sellTen ⟨1, by decide⟩] "A" := by
  have hplan : planTargets ⟨0⟩ emptyBook (sharedTicker listedOnce) 1000 tenHeld = .ok [sellTen ⟨1, by decide⟩] := by
    decide +kernel
  refine ((planTargets_reaches_iff hplan).1.mpr fun symbol hsymbol => ⟨fun p hp => absurd hp List.not_mem_nil, fun _ => .inl ?_⟩)
    "A" (by decide)
  have hsymbol : symbol = "A" := by simpa [sharedTicker, listedOnce, Dict.values, Dict.set, Dict.empty, Dict.keys] using hsymbol
  rw [hsymbol]
  decide

/-- Ten shares of a ticker that two securities carry are sold twice. -/
theorem planTargets_oversells :
    planTargets ⟨0⟩ emptyBook (sharedTicker listedTwice) 1000 tenHeld =
      .ok [sellTen ⟨1, by decide⟩, sellTen ⟨2, by decide⟩] ∧
    ¬Reaches emptyBook (sharedTicker listedTwice) 1000 tenHeld [sellTen ⟨1, by decide⟩, sellTen ⟨2, by decide⟩] "A" := by
  refine ⟨by decide +kernel, fun h => ?_⟩
  have hsold := h.sold fun p hp => absurd hp List.not_mem_nil
  revert hsold
  decide +kernel

end ExecutionStage
end AsymmetricCommittee
