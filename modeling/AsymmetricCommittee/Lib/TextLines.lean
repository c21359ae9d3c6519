import AsymmetricCommittee.Lib.PyText
import Mathlib.Data.List.Basic

/-! Texts that are put together from lines: which lines a joined text has, and which texts are one line. -/

namespace PyText

/-- Nothing in the text ends a line. -/
def OneLine (text : String) : Prop := '\n' ∉ text.toList

instance (text : String) : Decidable (OneLine text) := inferInstanceAs (Decidable (_ ∉ _))

/-! ### Texts of one line -/

@[simp] theorem oneLine_empty : OneLine "" := by simp [OneLine]

@[simp] theorem oneLine_append {a b : String} : OneLine (a ++ b) ↔ OneLine a ∧ OneLine b := by
  simp [OneLine, not_or]

theorem oneLine_intercalate {sep : String} {texts : List String} (hsep : OneLine sep) (h : ∀ t ∈ texts, OneLine t) :
    OneLine (String.intercalate sep texts) := by
  induction texts with
  | nil => simp
  | cons t rest ih =>
    have ht := h t List.mem_cons_self
    have ih := ih fun u hu => h u (List.mem_cons_of_mem t hu)
    cases rest with
    | nil => simpa using ht
    | cons u rest => simp [ht, hsep, ih]

theorem oneLine_ofList {cs : List Char} : OneLine (String.ofList cs) ↔ '\n' ∉ cs := by simp [OneLine]

theorem oneLine_slice {text : String} (h : OneLine text) (n : Nat) : OneLine (slice text n) :=
  oneLine_ofList.mpr fun hmem => h (List.mem_of_mem_take hmem)

/-- The parts hold no separator. -/
theorem not_of_mem_splitOnP {α : Type*} {p : α → Bool} {xs part : List α} (hpart : part ∈ xs.splitOnP p) :
    ∀ x ∈ part, p x = false := by
  induction xs generalizing part with
  | nil =>
    rw [List.splitOnP_nil, List.mem_singleton] at hpart
    simp [hpart]
  | cons y ys ih =>
    rw [List.splitOnP_cons_eq_if_modifyHead] at hpart
    by_cases hy : p y = true
    · rw [if_pos hy] at hpart
      rcases List.mem_cons.mp hpart with rfl | hpart
      · simp
      · exact ih hpart
    · rw [if_neg hy] at hpart
      cases hsplit : ys.splitOnP p with
      | nil => exact absurd hsplit (List.splitOnP_ne_nil p ys)
      | cons first rest =>
        rw [hsplit, List.modifyHead_cons] at hpart
        rcases List.mem_cons.mp hpart with rfl | hpart
        · intro x hx
          rcases List.mem_cons.mp hx with rfl | hx
          · simpa using hy
          · exact ih (hsplit ▸ List.mem_cons_self) x hx
        · exact ih (hsplit ▸ List.mem_cons_of_mem first hpart)

/-- Blanks are left out, and a line ends with a blank. -/
theorem oneLine_squeeze (text : String) : OneLine (squeeze text) := by
  refine oneLine_intercalate (by decide) fun word hword => ?_
  obtain ⟨cs, hcs, rfl⟩ := List.mem_map.mp hword
  refine oneLine_ofList.mpr fun hmem => ?_
  have hblank := not_of_mem_splitOnP (List.mem_of_mem_filter hcs) '\n' hmem
  exact absurd hblank (by decide)

theorem oneLine_nat (n : Nat) : OneLine (toString n) := by
  intro hmem
  rw [Nat.toString_eq_ofList_toDigits, String.toList_ofList] at hmem
  exact absurd (Nat.isDigit_of_mem_toDigits (by decide) (by decide) hmem) (by decide)

theorem oneLine_int (z : Int) : OneLine (toString z) := by
  cases z with
  | ofNat n => exact oneLine_nat n
  | negSucc n =>
    change OneLine ("-" ++ toString (n + 1))
    exact oneLine_append.mpr ⟨by decide, oneLine_nat _⟩

theorem toString_nat_injective : Function.Injective fun n : Nat => (toString n).toList := by
  intro m n h
  simp only [Nat.toString_eq_ofList_toDigits, String.toList_ofList] at h
  rw [← Nat.ofDigitChars_ten_toDigits (n := m), h, Nat.ofDigitChars_ten_toDigits]

/-! ### The lines of a text -/

theorem lines_of_oneLine {text : String} (h : OneLine text) : lines text = [text.toList] := List.splitOn_eq_singleton h

theorem lines_append_newline (a b : String) : lines (a ++ "\n" ++ b) = lines a ++ lines b := by
  simp [lines, List.splitOn_append_cons_self]

/-- Joined texts have the lines of each. -/
theorem lines_intercalate {texts : List String} (h : texts ≠ []) :
    lines (String.intercalate "\n" texts) = texts.flatMap lines := by
  induction texts with
  | nil => exact absurd rfl h
  | cons t rest ih =>
    cases rest with
    | nil => simp
    | cons u rest =>
      rw [String.intercalate_cons_cons, lines_append_newline, ih (List.cons_ne_nil u rest), List.flatMap_cons (x := t)]

/-- A text of one line before another one stands on its first line. -/
theorem lines_append {a : String} (h : OneLine a) (b : String) :
    lines (a ++ b) = (lines b).modifyHead (a.toList ++ ·) := by
  rw [lines, lines, String.toList_append]
  have hcs : '\n' ∉ a.toList := h
  generalize a.toList = cs at hcs ⊢
  induction cs with
  | nil =>
    rw [List.nil_append]
    cases List.splitOn '\n' b.toList <;> rfl
  | cons c cs ih =>
    rw [List.mem_cons, not_or] at hcs
    rw [List.cons_append, List.splitOn_cons_eq_if_modifyHead, if_neg (mt eq_of_beq (Ne.symm hcs.1)), ih hcs.2,
      List.modifyHead_modifyHead]
    rfl

end PyText
