import AsymmetricCommittee.Features.Builder
import AsymmetricCommittee.Theorems.PartitionBoundaries

/-! The buy signals of insiders. The table that agents are shown marks a purchase as a signal only if it is tagged as
    opportunistic; the features count every purchase outside a plan. Both say the same where the purchases that are not
    tagged add nothing. -/

namespace AsymmetricCommittee
namespace Builder
open Partitions (direction tradeTag insiderLine)

section Signals
variable {K : Type} [Field K] [LinearOrder K] {py : PyText} {rows visible buys signals : List (InsiderTxn K)} {asOf : AwareDatetime}
  {t : InsiderTxn K}

/-- What the table marks as a signal. -/
def isSignal (visible : List (InsiderTxn K)) (t : InsiderTxn K) : Bool :=
  direction t = "buy" && !t.is10b5One && tradeTag t visible = "OPPORTUNISTIC"

/-- The signals that were filed in the ninety days before `asOf`. -/
def windowSignals (rows : List (InsiderTxn K)) (asOf : AwareDatetime) : List (InsiderTxn K) :=
  rows.filter fun t => asOf.instant - 90 * Renderer.day < t.availableAt.instant && isSignal rows t

theorem direction_eq_buy : direction t = "buy" ↔ t.code = .p ∧ t.acquired = true := by
  unfold direction
  by_cases hbuy : t.code = .p ∧ t.acquired = true
  · simp [hbuy]
  · have hfirst : (decide (t.code = .p) && t.acquired) = false := by simpa using hbuy
    rw [hfirst]
    have hother : "other_" ++ t.code.value ≠ "buy" := fun h => by
      have hlist := congrArg String.toList h
      simp at hlist
    simp only [Bool.false_eq_true, if_false, hbuy, iff_false]
    split
    · decide
    · exact hother

/-- The last cell of a line says whether it is a signal. -/
theorem insiderLine_signal {fl : PyFloat K} {cik : Int} {adv : Option K} {n : Nat} {line : String}
    (h : insiderLine fl py visible cik adv asOf n t = .ok line) :
    ∃ cells, line = Renderer.row (cells ++ [if isSignal visible t then "1" else "0"]) := by
  unfold insiderLine at h
  obtain ⟨txnAge, -, h⟩ := Except.bind_eq_ok.mp h
  obtain ⟨filedAge, -, h⟩ := Except.bind_eq_ok.mp h
  obtain ⟨change, -, h⟩ := Except.bind_eq_ok.mp h
  obtain ⟨intensity, -, h⟩ := Except.bind_eq_ok.mp h
  obtain rfl := Except.ok.inj h
  exact ⟨[_, _, _, _, _, _, _, _, _, _, _, _], rfl⟩

/-- The signals are the purchases that are tagged. -/
theorem windowSignals_eq (rows : List (InsiderTxn K)) (asOf : AwareDatetime) :
    windowSignals rows asOf = (windowBuys rows asOf).filter fun t => tradeTag t rows = "OPPORTUNISTIC" := by
  unfold windowSignals windowBuys
  rw [List.filter_filter]
  refine List.filter_congr fun t _ => ?_
  rw [Bool.eq_iff_iff]
  simp only [isSignal, Bool.and_eq_true, decide_eq_true_eq, direction_eq_buy, Bool.not_eq_true']
  tauto

/-! ### Adding nothing -/

theorem dollars_nonneg [IsStrictOrderedRing K] (t : InsiderTxn K) : 0 ≤ dollars t := by
  refine mul_nonneg t.shares.property ?_
  cases t.price with
  | none => exact le_rfl
  | some price => exact price.property

/-- Two sums are equal iff the dollars that are left out are nothing. -/
theorem sum_filter_eq_iff [IsStrictOrderedRing K] {p : InsiderTxn K → Bool} :
    (buys.map dollars).sum = ((buys.filter p).map dollars).sum ↔ ∀ t ∈ buys, p t = false → dollars t = 0 := by
  have hsplit : (buys.map dollars).sum =
      ((buys.filter p).map dollars).sum + ((buys.filter fun t => !p t).map dollars).sum := by
    induction buys with
    | nil => simp
    | cons t buys ih =>
      rw [List.map_cons, List.sum_cons, ih]
      cases hp : p t
      · simp [hp]
        ring
      · simp [hp]
        ring
  rw [hsplit, add_eq_left]
  constructor
  · intro hzero t ht hp
    have hmem : dollars t ∈ (buys.filter fun t => !p t).map dollars :=
      List.mem_map_of_mem (List.mem_filter.mpr ⟨ht, by simp [hp]⟩)
    have hle := List.single_le_sum (fun x hx => by
      obtain ⟨t, -, rfl⟩ := List.mem_map.mp hx
      exact dollars_nonneg t) (dollars t) hmem
    exact le_antisymm (hzero ▸ hle) (dollars_nonneg t)
  · intro hzero
    refine List.sum_eq_zero fun x hx => ?_
    obtain ⟨t, ht, rfl⟩ := List.mem_map.mp hx
    obtain ⟨hmem, hp⟩ := List.mem_filter.mp ht
    exact hzero t hmem (by simpa using hp)

/-- Two counts of names are equal iff the names that are left out are named anyway. -/
theorem length_dedup_eq_iff {α : Type*} [DecidableEq α] {l l' : List α} (h : l' ⊆ l) :
    l.dedup.length = l'.dedup.length ↔ l ⊆ l' := by
  rw [← List.card_toFinset, ← List.card_toFinset]
  have hsub : l'.toFinset ⊆ l.toFinset := fun x hx => List.mem_toFinset.mpr (h (List.mem_toFinset.mp hx))
  constructor
  · intro hcard x hx
    have hsame := Finset.eq_of_subset_of_card_le hsub hcard.le
    exact List.mem_toFinset.mp (hsame ▸ List.mem_toFinset.mpr hx)
  · intro hback
    congr 1
    ext x
    rw [List.mem_toFinset, List.mem_toFinset]
    exact ⟨fun hx => hback hx, fun hx => h hx⟩

/-- A purchase that is not tagged and still changes no feature: it is worth nothing, its filer has a tagged purchase in the
    window, and so has a chief officer if it is one's. -/
structure AddsNothing (py : PyText) (rows : List (InsiderTxn K)) (asOf : AwareDatetime) (t : InsiderTxn K) : Prop where
  worthless : dollars t = 0
  filer : ∃ s ∈ windowBuys rows asOf, tradeTag s rows = "OPPORTUNISTIC" ∧ s.filer.val = t.filer.val
  chief : isChief py t = true → ∃ s ∈ windowBuys rows asOf, tradeTag s rows = "OPPORTUNISTIC" ∧ isChief py s = true

theorem mem_windowSignals : t ∈ windowSignals rows asOf ↔ t ∈ windowBuys rows asOf ∧ tradeTag t rows = "OPPORTUNISTIC" := by
  rw [windowSignals_eq, List.mem_filter, decide_eq_true_iff]

/-- The counts of filers are equal iff every purchase's filer has a signal. -/
theorem distinctBuyers_eq_iff :
    ((windowBuys rows asOf).map (·.filer.val)).dedup.length = ((windowSignals rows asOf).map (·.filer.val)).dedup.length ↔
      ∀ t ∈ windowBuys rows asOf, ∃ s ∈ windowBuys rows asOf, tradeTag s rows = "OPPORTUNISTIC" ∧ s.filer.val = t.filer.val := by
  have hsub : (windowSignals rows asOf).map (·.filer.val) ⊆ (windowBuys rows asOf).map (·.filer.val) := fun x hx => by
    obtain ⟨t, ht, rfl⟩ := List.mem_map.mp hx
    exact List.mem_map_of_mem (mem_windowSignals.mp ht).1
  rw [length_dedup_eq_iff hsub]
  constructor
  · intro hall t ht
    obtain ⟨s, hs, hfiler⟩ := List.mem_map.mp (hall (List.mem_map_of_mem ht))
    exact ⟨s, (mem_windowSignals.mp hs).1, (mem_windowSignals.mp hs).2, hfiler⟩
  · intro hall x hx
    obtain ⟨t, ht, rfl⟩ := List.mem_map.mp hx
    obtain ⟨s, hs, htag, hfiler⟩ := hall t ht
    exact List.mem_map.mpr ⟨s, mem_windowSignals.mpr ⟨hs, htag⟩, hfiler⟩

/-- The flags are equal iff a chief officer's purchase comes with a signal of one. -/
theorem chiefFlag_eq_iff :
    (if (windowBuys rows asOf).any (isChief py) then 1 else 0) = (if (windowSignals rows asOf).any (isChief py) then 1 else 0) ↔
      ∀ t ∈ windowBuys rows asOf, isChief py t = true →
        ∃ s ∈ windowBuys rows asOf, tradeTag s rows = "OPPORTUNISTIC" ∧ isChief py s = true := by
  have hsome : (windowSignals rows asOf).any (isChief py) = true ↔
      ∃ s ∈ windowBuys rows asOf, tradeTag s rows = "OPPORTUNISTIC" ∧ isChief py s = true := by
    simp only [List.any_eq_true, mem_windowSignals, and_assoc]
  constructor
  · intro hequal t ht hchief
    rw [if_pos (List.any_eq_true.mpr ⟨t, ht, hchief⟩)] at hequal
    by_contra hnone
    rw [if_neg (mt hsome.mp hnone)] at hequal
    cases hequal
  · intro hall
    by_cases hbuys : (windowBuys rows asOf).any (isChief py) = true
    · obtain ⟨t, ht, hchief⟩ := List.any_eq_true.mp hbuys
      rw [if_pos hbuys, if_pos (hsome.mpr (hall t ht hchief))]
    · have hsignals : ¬(windowSignals rows asOf).any (isChief py) = true := fun hsig => by
        obtain ⟨s, hs, -, hchief⟩ := hsome.mp hsig
        exact hbuys (List.any_eq_true.mpr ⟨s, hs, hchief⟩)
      rw [if_neg hbuys, if_neg hsignals]

/-- The features are those of the signals iff every purchase of the window that is not tagged as opportunistic adds nothing. -/
theorem insiderFeatures_iff [IsStrictOrderedRing K] (py : PyText) (rows : List (InsiderTxn K)) (asOf : AwareDatetime) :
    insiderFeatures py rows asOf = featuresOf py (windowSignals rows asOf) ↔
      ∀ t ∈ windowBuys rows asOf, tradeTag t rows ≠ "OPPORTUNISTIC" → AddsNothing py rows asOf t := by
  have hdollars : ((windowBuys rows asOf).map dollars).sum = ((windowSignals rows asOf).map dollars).sum ↔
      ∀ t ∈ windowBuys rows asOf, tradeTag t rows ≠ "OPPORTUNISTIC" → dollars t = 0 := by
    rw [windowSignals_eq, sum_filter_eq_iff]
    simp only [decide_eq_false_iff_not, ne_eq]
  unfold insiderFeatures featuresOf
  rw [InsiderFeatures.mk.injEq, hdollars, distinctBuyers_eq_iff, chiefFlag_eq_iff]
  constructor
  · intro h t ht htag
    obtain ⟨hworthless, hfiler, hchief⟩ := h
    exact ⟨hworthless t ht htag, hfiler t ht, hchief t ht⟩
  · intro h
    refine ⟨fun t ht htag => (h t ht htag).worthless, fun t ht => ?_, fun t ht hchief => ?_⟩
    · by_cases htag : tradeTag t rows = "OPPORTUNISTIC"
      · exact ⟨t, ht, htag, rfl⟩
      · exact (h t ht htag).filer
    · by_cases htag : tradeTag t rows = "OPPORTUNISTIC"
      · exact ⟨t, ht, htag, hchief⟩
      · exact (h t ht htag).chief hchief

end Signals

/-! ### A purchase without history -/

section Sample
open Partitions (oneTrade plainText)

/-- One purchase, two days before: the history is too short to tell. -/
theorem insiderFeatures_untagged :
    insiderFeatures plainText [oneTrade] ⟨4 * Renderer.day, 0⟩ ≠
      featuresOf plainText (windowSignals [oneTrade] ⟨4 * Renderer.day, 0⟩) := by
  intro h
  have hcount := congrArg InsiderFeatures.distinctBuyers h
  revert hcount
  decide

theorem insiderFeatures_iff_untagged :
    insiderFeatures plainText [oneTrade] ⟨4 * Renderer.day, 0⟩ =
        featuresOf plainText (windowSignals [oneTrade] ⟨4 * Renderer.day, 0⟩) ↔
      ∀ t ∈ windowBuys [oneTrade] ⟨4 * Renderer.day, 0⟩, tradeTag t [oneTrade] ≠ "OPPORTUNISTIC" →
        AddsNothing plainText [oneTrade] ⟨4 * Renderer.day, 0⟩ t :=
  insiderFeatures_iff plainText [oneTrade] ⟨4 * Renderer.day, 0⟩

end Sample
end Builder
end AsymmetricCommittee
