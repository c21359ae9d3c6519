import AsymmetricCommittee.Agents.Patterns
import AsymmetricCommittee.Lib.TextWords
import AsymmetricCommittee.Theorems.PersonMasks
import Mathlib

/-! What the masker's pattern matches, and what a match is replaced by. The pattern takes the separators of a ticker, the
    blanks of a name and the case of letters as they come, and the keys of a match undo that: an alias that a match spells
    with letters of the same folding is found by them, save a short ticker with other separators and a name that begins with
    a dollar sign. -/

namespace AsymmetricCommittee
namespace Partitioner
open PyText AliasMasker

section Rules
variable {py : PyText} (rules : TextRules py) {a : Alias} {m text : String} {u v w : List Char}

/-! ### Folding -/

/-- `casefold` of characters. -/
def TextRules.folds (cs : List Char) : List Char := cs.flatMap rules.fold

theorem toList_casefold (text : String) : (py.casefold text).toList = rules.folds text.toList := by
  rw [rules.casefold_eq, String.toList_ofList, TextRules.folds]

@[simp] theorem folds_nil : rules.folds [] = [] := rfl

@[simp] theorem folds_cons (c : Char) (cs : List Char) : rules.folds (c :: cs) = rules.fold c ++ rules.folds cs := rfl

@[simp] theorem folds_append (u v : List Char) : rules.folds (u ++ v) = rules.folds u ++ rules.folds v := List.flatMap_append

theorem folds_flatten (ws : List (List Char)) : rules.folds ws.flatten = (ws.map rules.folds).flatten := by
  induction ws with
  | nil => rfl
  | cons w ws ih => rw [List.flatten_cons, folds_append, ih, List.map_cons, List.flatten_cons]

theorem folds_of_self {cs : List Char} (h : ∀ c ∈ cs, rules.fold c = [c]) : rules.folds cs = cs := by
  rw [TextRules.folds, List.flatMap_congr h, List.flatMap_singleton']

theorem folds_folds (cs : List Char) : rules.folds (rules.folds cs) = rules.folds cs := by
  refine folds_of_self rules fun d hd => ?_
  obtain ⟨c, -, hd⟩ := List.mem_flatMap.mp hd
  exact rules.fold_fold c d hd

theorem folds_alike (h : List.Forall₂ rules.Alike u v) : rules.folds u = rules.folds v := by
  induction h with
  | nil => rfl
  | cons hcd _ ih => rw [folds_cons, folds_cons, hcd.2, ih]

theorem isSpace_alike {c d : Char} (h : rules.fold c = rules.fold d) : isSpace c = isSpace d := by
  obtain ⟨x, hx⟩ := List.exists_mem_of_ne_nil _ (rules.fold_ne_nil c)
  rw [← rules.fold_space c x hx, rules.fold_space d x (h ▸ hx)]

theorem isWord_folds (h : IsWord w) : IsWord (rules.folds w) := by
  refine ⟨fun hnil => ?_, fun d hd => ?_⟩
  · obtain ⟨c, hc⟩ := List.exists_mem_of_ne_nil w h.1
    exact rules.fold_ne_nil c (List.flatMap_eq_nil_iff.mp hnil c hc)
  · obtain ⟨c, hc, hd⟩ := List.mem_flatMap.mp hd
    rw [rules.fold_space c d hd, h.2 c hc]

theorem isWord_alike (h : List.Forall₂ rules.Alike u v) (hv : IsWord v) : IsWord u := by
  refine ⟨fun hnil => ?_, fun c hc => ?_⟩
  · rw [hnil] at h
    exact hv.1 (List.forall₂_nil_left_iff.mp h)
  · obtain ⟨d, hd, hcd⟩ := Forall₂.exists_of_mem_left h hc
    rw [isSpace_alike rules hcd.2, hv.2 d hd]

theorem folds_intercalate (ws : List (List Char)) :
    rules.folds ([' '].intercalate ws) = [' '].intercalate (ws.map rules.folds) := by
  have hblank : rules.fold ' ' = [' '] := rules.fold_ascii ' ' (by decide)
  induction ws with
  | nil => rfl
  | cons w ws ih =>
    cases ws with
    | nil => rw [List.map_singleton, List.intercalate_singleton, List.intercalate_singleton]
    | cons w' ws =>
      rw [List.intercalate_cons_cons, folds_append, folds_append, ih, folds_cons, hblank, folds_nil, List.append_nil]
      exact List.intercalate_cons_cons.symm

/-- Folding keeps the words. -/
theorem squeezed_folds (h : Squeezed u) : Squeezed (rules.folds u) := by
  obtain ⟨ws, rfl, hws⟩ := h
  refine ⟨_, folds_intercalate rules ws, fun w hw => ?_⟩
  obtain ⟨w', hw', rfl⟩ := List.mem_map.mp hw
  exact isWord_folds rules (hws w' hw')

/-- Folding makes no dollar sign and takes none away. -/
theorem head_folds : (rules.folds u).head? = some '$' ↔ u.head? = some '$' := by
  cases u with
  | nil => simp
  | cons c u =>
    obtain ⟨d, ds, hfold⟩ := List.exists_cons_of_ne_nil (rules.fold_ne_nil c)
    rw [folds_cons, hfold, List.cons_append, List.head?_cons, List.head?_cons, Option.some_inj, Option.some_inj]
    constructor
    · rintro rfl
      exact rules.fold_mark c '$' (hfold ▸ List.mem_cons_self) (by decide)
    · rintro rfl
      rw [rules.fold_ascii '$' (by decide), List.cons.injEq] at hfold
      exact hfold.1.symm

/-! ### Names -/

/-- Words with blanks between them are read as these words. -/
theorem wordLists_join {ws : List (List Char)} (hne : ws ≠ []) (hws : ∀ w ∈ ws, IsWord w)
    (h : Rx.Matches rules.Alike (Rx.join (.plus (.cls r"\s" isSpace))
      (ws.map fun w => .lit (py.escape (String.ofList w)) (String.ofList w))) true u) :
    (wordLists u).map rules.folds = ws.map rules.folds := by
  induction ws generalizing u with
  | nil => exact absurd rfl hne
  | cons w ws ih =>
    obtain ⟨hw, hws⟩ := List.forall_mem_cons.mp hws
    cases ws with
    | nil =>
      rw [List.map_singleton, Rx.join, Rx.Matches, if_pos rfl, String.toList_ofList] at h
      rw [wordLists_word (isWord_alike rules h hw), List.map_singleton, List.map_singleton, folds_alike rules h]
    | cons w' ws =>
      rw [List.map_cons, List.map_cons, Rx.matches_join_cons] at h
      obtain ⟨x, v, y, rfl, hx, hv, hy⟩ := h
      rw [Rx.Matches, if_pos rfl, String.toList_ofList] at hx
      obtain ⟨hvne, hv⟩ := Rx.matches_plus_cls.mp hv
      rw [wordLists_word_blanks (isWord_alike rules hx hw) hvne hv, List.map_cons, ih (List.cons_ne_nil w' ws) hws hy,
        folds_alike rules hx]
      rfl

theorem folds_squeeze_words {form : String} (hform : Squeezed form.toList)
    (h : (wordsRx py form).Matches rules.Alike true u) :
    rules.folds (squeeze (String.ofList u)).toList = rules.folds form.toList := by
  obtain ⟨ws, hws, hwords⟩ := hform
  rw [wordsRx] at h
  rw [hws] at h ⊢
  rw [toList_squeeze, folds_intercalate, folds_intercalate]
  congr 1
  cases ws with
  | nil =>
    have hnil : ([' '].intercalate ([] : List (List Char))).splitOn ' ' = [[]] := rfl
    rw [hnil, List.map_singleton, Rx.join, Rx.Matches, if_pos rfl] at h
    rw [List.forall₂_nil_right_iff.mp h, wordLists_nil]
  | cons w ws =>
    rw [splitOn_intercalate_words (List.cons_ne_nil w ws) hwords] at h
    exact wordLists_join rules (List.cons_ne_nil w ws) hwords h

theorem squeezed_canon (text : String) : Squeezed (canon py text).toList := squeezed_squeeze _

theorem removePrefix_of_head {mark : Char} (h : text.toList.head? ≠ some mark) : removePrefix mark text = text := by
  unfold removePrefix
  split
  · next c rest heq =>
    rw [heq, List.head?_cons] at h
    rw [if_neg fun hc => h (congrArg some hc)]
  · rfl

theorem canon_of_normal (hnorm : normalize py m = m) : canon py m = squeeze m := by rw [canon, hnorm]

/-- A name that begins with no dollar sign is found by its folding. -/
theorem denotes_name (hnorm : normalize py m = m) (hkey : keyOf py a = py.casefold (canon py a.text.val))
    (hdollar : (canon py a.text.val).toList.head? ≠ some '$')
    {form : String} (hform : form = canon py a.text.val ∨ form = py.casefold (canon py a.text.val))
    (hmatch : (wordsRx py form).Matches rules.Alike true m.toList) : Denotes py m a := by
  have hfolds : rules.folds (squeeze m).toList = rules.folds (canon py a.text.val).toList := by
    rcases hform with rfl | rfl
    · have hsame := folds_squeeze_words rules (squeezed_canon _) hmatch
      rwa [String.ofList_toList] at hsame
    · have hsqueezed : Squeezed (py.casefold (canon py a.text.val)).toList := by
        rw [toList_casefold rules]
        exact squeezed_folds rules (squeezed_canon _)
      have hsame := folds_squeeze_words rules hsqueezed hmatch
      rwa [String.ofList_toList, toList_casefold rules, folds_folds] at hsame
  have hhead : (squeeze m).toList.head? ≠ some '$' := by
    rw [ne_eq, ← head_folds rules, hfolds, head_folds rules]
    exact hdollar
  have hfolded : py.casefold (removePrefix '$' (canon py m)) = py.casefold (canon py a.text.val) := by
    rw [canon_of_normal hnorm, removePrefix_of_head hhead, ← String.toList_inj, toList_casefold rules, toList_casefold rules,
      hfolds]
  rw [Denotes, hkey, ← hfolded, candidateKeys]
  exact List.mem_append_left _ List.mem_cons_self

/-! ### Tickers -/

theorem ticker_chars {t : String} (h : isTicker t = true) :
    t.toList ≠ [] ∧ ∀ c ∈ t.toList, (('A' ≤ c ∧ c ≤ 'Z') ∨ ('0' ≤ c ∧ c ≤ '9') ∨ c = '.' ∨ c = '-') := by
  unfold isTicker at h
  split at h
  · cases h
  · next c cs hcs =>
    rw [hcs]
    simp only [Bool.and_eq_true, List.all_eq_true, Bool.or_eq_true, decide_eq_true_eq] at h
    obtain ⟨⟨hc, -⟩, hall⟩ := h
    refine ⟨List.cons_ne_nil c cs, List.forall_mem_cons.mpr ⟨.inl hc, fun d hd => ?_⟩⟩
    simpa only [or_assoc] using hall d hd

/-- A letter of a ticker is a letter of ASCII, no blank, no dollar sign and no apostrophe. -/
theorem ticker_char {c : Char} (h : ('A' ≤ c ∧ c ≤ 'Z') ∨ ('0' ≤ c ∧ c ≤ '9') ∨ c = '.' ∨ c = '-') :
    33 ≤ c.toNat ∧ c.toNat < 128 ∧ c ≠ '$' := by
  have hle : ∀ {x y : Char}, x ≤ y → x.toNat ≤ y.toNat := fun hxy => UInt32.le_iff_toNat_le.mp hxy
  rcases h with ⟨hlo, hhi⟩ | ⟨hlo, hhi⟩ | rfl | rfl
  · have hlo := hle hlo
    have hhi := hle hhi
    refine ⟨le_trans (by decide) hlo, lt_of_le_of_lt hhi (by decide), ?_⟩
    rintro rfl
    exact absurd hlo (by decide)
  · have hlo := hle hlo
    have hhi := hle hhi
    refine ⟨le_trans (by decide) hlo, lt_of_le_of_lt hhi (by decide), ?_⟩
    rintro rfl
    exact absurd hlo (by decide)
  · decide
  · decide

theorem isSpace_of_ascii {c : Char} (hlo : 33 ≤ c.toNat) (hhi : c.toNat < 128) : isSpace c = false := by
  simp only [isSpace, Bool.or_eq_false_iff, Bool.and_eq_false_iff, decide_eq_false_iff_not]
  omega

include rules in
theorem canon_ticker {t : String} (h : isTicker t = true) : canon py t = t := by
  obtain ⟨hne, hchars⟩ := ticker_chars h
  have hnfkc : py.nfkc t = t := rules.nfkc_ascii t fun c hc => (ticker_char (hchars c hc)).2.1
  have hnorm : normalize py t = t := by
    rw [normalize, hnfkc, ← String.toList_inj, String.toList_map]
    refine (List.map_congr_left fun c hc => if_neg fun hcurly => ?_).trans (List.map_id _)
    obtain ⟨-, hascii, -⟩ := ticker_char (hchars c hc)
    simp only [Bool.or_eq_true, decide_eq_true_eq] at hcurly
    rcases hcurly with (rfl | rfl) | rfl <;> exact absurd hascii (by decide)
  have hword : IsWord t.toList :=
    ⟨hne, fun c hc => isSpace_of_ascii (ticker_char (hchars c hc)).1 (ticker_char (hchars c hc)).2.1⟩
  have hsqueeze := squeeze_word hword
  rw [String.ofList_toList] at hsqueeze
  rw [canon, hnorm, hsqueeze]

/-- What the expression of a text with interchangeable separators matches. -/
theorem forall₂_join {source : String} {T : List Char}
    (h : Rx.Matches rules.Alike (Rx.join (.cls source tickerSep)
      ((T.splitOnP tickerSep).map fun part => .lit (py.escape (String.ofList part)) (String.ofList part))) true v) :
    List.Forall₂ (fun c d => (tickerSep c = true ∧ tickerSep d = true) ∨ rules.Alike c d) v T := by
  induction T generalizing v with
  | nil =>
    rw [List.splitOnP_nil, List.map_singleton, Rx.join, Rx.Matches, if_pos rfl] at h
    rw [List.forall₂_nil_right_iff.mp h]
    exact .nil
  | cons d T ih =>
    obtain ⟨p, ps, hsplit⟩ := List.exists_cons_of_ne_nil (List.splitOnP_ne_nil tickerSep T)
    rw [List.splitOnP_cons_eq_if_modifyHead] at h
    rw [hsplit] at h ih
    by_cases hsep : tickerSep d = true
    · rw [if_pos hsep, List.map_cons, List.map_cons, Rx.matches_join_cons] at h
      obtain ⟨x, s, y, rfl, hx, ⟨c, rfl, hc⟩, hy⟩ := h
      rw [Rx.Matches, if_pos rfl, String.toList_ofList] at hx
      rw [List.forall₂_nil_right_iff.mp hx]
      exact .cons (.inl ⟨hc, hsep⟩) (ih hy)
    · rw [if_neg hsep, List.modifyHead_cons] at h
      cases ps with
      | nil =>
        rw [List.map_singleton, Rx.join, Rx.Matches, if_pos rfl, String.toList_ofList] at h
        rw [List.map_singleton, Rx.join] at ih
        cases h with
        | cons hcd hrest =>
          refine .cons (.inr hcd) (ih ?_)
          rwa [Rx.Matches, if_pos rfl, String.toList_ofList]
      | cons q qs =>
        rw [List.map_cons, List.map_cons, Rx.matches_join_cons] at h
        obtain ⟨x, s, y, rfl, hx, hs, hy⟩ := h
        rw [Rx.Matches, if_pos rfl, String.toList_ofList] at hx
        cases hx with
        | cons hcd hrest =>
          refine .cons (.inr hcd) (ih ?_)
          rw [List.map_cons, List.map_cons, Rx.matches_join_cons]
          refine ⟨_, s, y, rfl, ?_, hs, hy⟩
          rwa [Rx.Matches, if_pos rfl, String.toList_ofList]

theorem fold_sep {c : Char} (h : tickerSep c = true) :
    (rules.fold c).map (fun c => if tickerSep c then '.' else c) = ['.'] := by
  simp only [tickerSep, Bool.or_eq_true, decide_eq_true_eq] at h
  rcases h with (rfl | rfl) | rfl
  · rw [rules.fold_ascii '.' (by decide)]
    rfl
  · rw [rules.fold_ascii '-' (by decide)]
    rfl
  · rw [rules.fold_ascii '/' (by decide)]
    rfl

theorem dotted_folds {T : List Char}
    (h : List.Forall₂ (fun c d => (tickerSep c = true ∧ tickerSep d = true) ∨ rules.Alike c d) v T) :
    (rules.folds v).map (fun c => if tickerSep c then '.' else c) =
      (rules.folds T).map fun c => if tickerSep c then '.' else c := by
  induction h with
  | nil => rfl
  | cons hcd _ ih =>
    rw [folds_cons, folds_cons, List.map_append, List.map_append, ih]
    rcases hcd with ⟨hc, hd⟩ | hcd
    · rw [fold_sep rules hc, fold_sep rules hd]
    · rw [hcd.2]

/-- What remains of a ticker without its dollar sign. -/
theorem removePrefix_ticker (hm : m.toList = u ++ v) (hu : u = [] ∨ u = ['$']) (hv : v.head? ≠ some '$') :
    removePrefix '$' m = String.ofList v := by
  rcases hu with rfl | rfl
  · rw [List.nil_append] at hm
    rw [removePrefix_of_head (hm ▸ hv), ← hm, String.ofList_toList]
  · unfold removePrefix
    rw [hm]
    rfl

/-- A long ticker is found by its folding with dots. -/
theorem denotes_ticker (hnorm : normalize py m = m) (hticker : isTicker a.text.val = true)
    (hkey : keyOf py a = dotted (py.casefold (canon py a.text.val))) (hm : m.toList = u ++ v) (hu : u = [] ∨ u = ['$'])
    (h : List.Forall₂ (fun c d => (tickerSep c = true ∧ tickerSep d = true) ∨ rules.Alike c d) v a.text.val.toList) :
    Denotes py m a := by
  obtain ⟨hne, hchars⟩ := ticker_chars hticker
  have hblank : ∀ c ∈ v, isSpace c = false := by
    intro c hc
    obtain ⟨d, hd, hcd⟩ := Forall₂.exists_of_mem_left h hc
    rcases hcd with ⟨hsep, -⟩ | hcd
    · simp only [tickerSep, Bool.or_eq_true, decide_eq_true_eq] at hsep
      rcases hsep with (rfl | rfl) | rfl <;> decide
    · obtain ⟨hlo, hhi, -⟩ := ticker_char (hchars d hd)
      rw [isSpace_alike rules hcd.2, isSpace_of_ascii hlo hhi]
  have hhead : v.head? ≠ some '$' := by
    intro hdollar
    obtain ⟨d, hd, hcd⟩ := Forall₂.exists_of_mem_left h (List.mem_of_mem_head? hdollar)
    rcases hcd with ⟨hsep, -⟩ | hcd
    · exact absurd hsep (by decide)
    · have hmem : '$' ∈ rules.fold d := by
        rw [← hcd.2, rules.fold_ascii '$' (by decide)]
        exact List.mem_singleton_self _
      exact (ticker_char (hchars d hd)).2.2 (rules.fold_mark d '$' hmem (by decide))
  have hword : IsWord m.toList := by
    rw [hm]
    refine ⟨fun hnil => ?_, List.forall_mem_append.mpr ⟨?_, hblank⟩⟩
    · rw [(List.append_eq_nil_iff.mp hnil).2] at h
      exact hne (List.forall₂_nil_left_iff.mp h)
    · rcases hu with rfl | rfl
      · exact fun c hc => absurd hc List.not_mem_nil
      · exact List.forall_mem_singleton.mpr (by decide)
  have hsqueeze := squeeze_word hword
  rw [String.ofList_toList] at hsqueeze
  have hfolded : dotted (py.casefold (removePrefix '$' (canon py m))) = dotted (py.casefold (canon py a.text.val)) := by
    rw [canon_of_normal hnorm, hsqueeze, removePrefix_ticker hm hu hhead, canon_ticker rules hticker, ← String.toList_inj,
      dotted, dotted, String.toList_map, String.toList_map, toList_casefold rules, toList_casefold rules,
      String.toList_ofList]
    exact dotted_folds rules h
  rw [Denotes, hkey, ← hfolded, candidateKeys]
  exact List.mem_append_left _ (List.mem_cons_of_mem _ List.mem_cons_self)

include rules in
/-- A short ticker with its own separators is found by its letters. -/
theorem denotes_short (hnorm : normalize py m = m) (hticker : isTicker a.text.val = true)
    (hkey : keyOf py a = "S:" ++ canon py a.text.val) (hown : removePrefix '$' m = canon py a.text.val) : Denotes py m a := by
  obtain ⟨hne, hchars⟩ := ticker_chars hticker
  rw [canon_ticker rules hticker] at hkey hown
  have hword : IsWord m.toList := by
    have hblank : ∀ c ∈ a.text.val.toList, isSpace c = false := fun c hc =>
      isSpace_of_ascii (ticker_char (hchars c hc)).1 (ticker_char (hchars c hc)).2.1
    rw [removePrefix] at hown
    split at hown
    · next c rest heq =>
      split at hown
      · next hc =>
        rw [← hown, String.toList_ofList] at hblank
        rw [heq, hc]
        exact ⟨List.cons_ne_nil _ _, List.forall_mem_cons.mpr ⟨by decide, hblank⟩⟩
      · rw [hown]
        exact ⟨hne, hblank⟩
    · rw [hown]
      exact ⟨hne, hblank⟩
  have hsqueeze := squeeze_word hword
  rw [String.ofList_toList] at hsqueeze
  rw [Denotes, hkey, candidateKeys, canon_of_normal hnorm, hsqueeze, hown]
  exact List.mem_append_left _ (List.mem_cons_of_mem _ (List.mem_cons_of_mem _ List.mem_cons_self))

/-! ### CIKs -/

theorem digit_char {c : Char} (h : c.isDigit = true) : isSpace c = false ∧ rules.fold c = [c] := by
  simp only [Char.isDigit, Bool.and_eq_true, decide_eq_true_eq] at h
  obtain ⟨hlo, hhi⟩ := h
  have hlo : 48 ≤ c.toNat := UInt32.le_iff_toNat_le.mp hlo
  have hhi : c.toNat ≤ 57 := UInt32.le_iff_toNat_le.mp hhi
  refine ⟨isSpace_of_ascii (le_trans (by decide) hlo) (lt_of_le_of_lt hhi (by decide)), ?_⟩
  rw [rules.fold_ascii c (lt_of_le_of_lt hhi (by decide)), Char.toLower, dif_neg]
  rintro ⟨hupper, -⟩
  have hupper : 65 ≤ c.toNat := UInt32.le_iff_toNat_le.mp hupper
  omega

theorem isDigit_toString {n : Nat} {c : Char} (h : c ∈ (toString n).toList) : c.isDigit = true := by
  rw [Nat.toString_eq_ofList_toDigits, String.toList_ofList] at h
  exact Nat.isDigit_of_mem_toDigits (by decide) (by decide) h

/-- Zeros and a number. -/
theorem isDigit_padded {zeros n : Nat} {c : Char} (h : c ∈ List.replicate zeros '0' ++ (toString n).toList) :
    c.isDigit = true := by
  rcases List.mem_append.mp h with h | h
  · rw [List.eq_of_mem_replicate h]
    rfl
  · exact isDigit_toString h

include rules in
theorem isWord_padded (zeros n : Nat) : IsWord (List.replicate zeros '0' ++ (toString n).toList) := by
  refine ⟨List.append_ne_nil_of_right_ne_nil _ ?_, fun c hc => (digit_char rules (isDigit_padded hc)).1⟩
  rw [Nat.toString_eq_ofList_toDigits, String.toList_ofList]
  exact Nat.toDigits_ne_nil

theorem folds_padded (zeros n : Nat) : rules.folds (List.replicate zeros '0' ++ (toString n).toList) =
    List.replicate zeros '0' ++ (toString n).toList :=
  folds_of_self rules fun _ hc => (digit_char rules (isDigit_padded hc)).2

/-- A CIK is read off a text that folds to a label and the number. -/
theorem mem_candidateKeys_cik {label : List Char} {z n : Nat} (hnorm : normalize py m = m)
    (hlabel : label = [] ∨ CikLabel label)
    (h : rules.folds (squeeze m).toList = label ++ List.replicate z '0' ++ (toString n).toList) :
    "cik:" ++ toString n ∈ candidateKeys py m := by
  have hhead : (squeeze m).toList.head? ≠ some '$' := by
    rw [ne_eq, ← head_folds rules, h]
    intro hdollar
    rcases hlabel with rfl | ⟨items, rfl, -⟩
    · rw [List.nil_append] at hdollar
      exact absurd (isDigit_padded (List.mem_of_mem_head? hdollar)) (by decide)
    · simp at hdollar
  have hfolded : py.casefold (removePrefix '$' (canon py m)) =
      String.ofList (label ++ List.replicate z '0' ++ (toString n).toList) := by
    rw [canon_of_normal hnorm, removePrefix_of_head hhead, rules.casefold_eq, ← h]
    rfl
  have hgroup := rules.cik_group label z n hlabel
  rw [← hfolded] at hgroup
  rw [candidateKeys]
  refine List.mem_append_right _ ?_
  rw [hgroup]
  exact List.mem_singleton_self _

/-- What may stand between the letters of a label and its number, folded. -/
def labelParts : List (List Char) := [":".toList, "#".toList, "=".toList, "-".toList, "no".toList, "no.".toList]

/-- One part of a label: a blank, or a word that folds to a part. -/
theorem labelPart (h : (∃ c, u = [c] ∧ (isSpace c || c = ':' || c = '#' || c = '=' || c = '-') = true) ∨
      ∃ x y, u = x ++ y ∧ List.Forall₂ rules.Alike x "no".toList ∧ (y = [] ∨ ∃ c, y = [c] ∧ decide (c = '.') = true)) :
    (IsWord u ∧ rules.folds u ∈ labelParts) ∨ ∃ c, isSpace c = true ∧ u = [c] := by
  rcases h with ⟨c, rfl, hc⟩ | ⟨x, y, rfl, hx, hy⟩
  · simp only [Bool.or_eq_true, decide_eq_true_eq] at hc
    rcases hc with (((hc | rfl) | rfl) | rfl) | rfl
    · exact .inr ⟨c, hc, rfl⟩
    all_goals
      refine .inl ⟨isWord_of_all (List.cons_ne_nil _ _) (by decide), ?_⟩
      rw [folds_cons, rules.fold_ascii _ (by decide), folds_nil]
      decide
  · have hno : rules.folds "no".toList = "no".toList := by
      refine folds_of_self rules (List.forall_mem_cons.mpr ⟨?_, List.forall_mem_singleton.mpr ?_⟩)
      · exact rules.fold_ascii 'n' (by decide)
      · exact rules.fold_ascii 'o' (by decide)
    have hword : IsWord x := isWord_alike rules hx (isWord_of_all (by decide) (by decide))
    rcases hy with rfl | ⟨c, rfl, hc⟩
    · refine .inl ⟨?_, ?_⟩
      · rwa [List.append_nil]
      · rw [List.append_nil, folds_alike rules hx, hno]
        decide
    · rw [of_decide_eq_true hc]
      have hdot : IsWord ['.'] := isWord_of_all (List.cons_ne_nil _ _) (by decide)
      refine .inl ⟨⟨List.append_ne_nil_of_left_ne_nil hword.1 _, List.forall_mem_append.mpr ⟨hword.2, hdot.2⟩⟩, ?_⟩
      rw [folds_append, folds_alike rules hx, hno, folds_cons, rules.fold_ascii '.' (by decide), folds_nil]
      decide

/-- A labelled CIK is found by its number. -/
theorem denotes_labelled {k : List Char} {parts : List (List Char)} {zeros n : Nat} (hnorm : normalize py m = m)
    (hkey : keyOf py a = "cik:" ++ toString n) (hk : List.Forall₂ rules.Alike k "cik".toList)
    (hparts : ∀ u ∈ parts, (IsWord u ∧ rules.folds u ∈ labelParts) ∨ ∃ c, isSpace c = true ∧ u = [c])
    (hm : m.toList = k ++ parts.flatten ++ (List.replicate zeros '0' ++ (toString n).toList)) : Denotes py m a := by
  have hword : IsWord k := isWord_alike rules hk (isWord_of_all (by decide) (by decide))
  obtain ⟨parts', hsqueeze, hmem⟩ := toList_squeeze_parts (isWord_padded rules zeros n)
    (fun u hu => (hparts u hu).imp_left And.left) hword.2
  rw [← hm, String.ofList_toList] at hsqueeze
  have hcik : rules.folds "cik".toList = "cik".toList := by
    refine folds_of_self rules (List.forall_mem_cons.mpr ⟨?_, List.forall_mem_cons.mpr ⟨?_, List.forall_mem_singleton.mpr ?_⟩⟩)
    · exact rules.fold_ascii 'c' (by decide)
    · exact rules.fold_ascii 'i' (by decide)
    · exact rules.fold_ascii 'k' (by decide)
  have hlabel : CikLabel (rules.folds (k ++ parts'.flatten)) := by
    refine ⟨parts'.map rules.folds, ?_, fun item hitem => ?_⟩
    · rw [folds_append, folds_alike rules hk, hcik, folds_flatten]
    · obtain ⟨u, hu, rfl⟩ := List.mem_map.mp hitem
      rcases hmem u hu with rfl | ⟨hu, hword⟩
      · refine .inr ⟨' ', by decide, ?_⟩
        rw [folds_cons, rules.fold_ascii ' ' (by decide)]
        rfl
      · rcases hparts u hu with ⟨-, hfold⟩ | ⟨c, hc, rfl⟩
        · exact .inl hfold
        · exact absurd (hword.2 c (List.mem_singleton_self c)) (by rw [hc]; exact nofun)
  rw [Denotes, hkey]
  refine mem_candidateKeys_cik rules hnorm (.inr hlabel) (z := zeros) ?_
  rw [hsqueeze, folds_append, folds_padded, List.append_assoc]

include rules in
/-- A padded CIK is found by its number. -/
theorem denotes_padded {zeros n : Nat} (hnorm : normalize py m = m) (hkey : keyOf py a = "cik:" ++ toString n)
    (hm : m.toList = List.replicate zeros '0' ++ (toString n).toList) : Denotes py m a := by
  have hsqueeze := squeeze_word (hm ▸ isWord_padded rules zeros n)
  rw [String.ofList_toList] at hsqueeze
  rw [Denotes, hkey]
  refine mem_candidateKeys_cik rules hnorm (.inl rfl) (z := zeros) ?_
  rw [hsqueeze, hm, folds_padded, List.nil_append]

/-! ### Aliases -/

variable (py) in
/-- A ticker of so few letters that it is matched in capitals only. -/
def Short (a : Alias) : Prop := (py.sub r"\W" false (fun _ => "") (canon py a.text.val)).length ≤ shortTicker

instance : Decidable (Short py a) := inferInstanceAs (Decidable (_ ≤ _))

variable (py) in
/-- The keys undo the spelling: a name begins with no dollar sign, and a short ticker has its own separators. -/
def Undone (a : Alias) (m : String) : Prop :=
  match a.kind with
  | .name | .brand | .person => (canon py a.text.val).toList.head? ≠ some '$'
  | .ticker => Short py a → removePrefix '$' m = canon py a.text.val
  | .cik => True

theorem denotes_words (hnorm : normalize py m = m) (hkey : keyOf py a = py.casefold (canon py a.text.val))
    (hdollar : (canon py a.text.val).toList.head? ≠ some '$') {forms : List String} (hne : forms ≠ [])
    (hforms : ∀ form ∈ forms, form = canon py a.text.val ∨ form = py.casefold (canon py a.text.val))
    (h : Rx.Matches rules.Alike (.flag true (Rx.any (forms.map (wordsRx py)))) false m.toList) : Denotes py m a := by
  obtain ⟨r, hr, hmatch⟩ := (Rx.matches_any (mt List.map_eq_nil_iff.mp hne)).mp h
  obtain ⟨form, hform, rfl⟩ := List.mem_map.mp hr
  exact denotes_name rules hnorm hkey hdollar (hforms form hform) hmatch

/-- An alias is found by the keys of what spells it. -/
theorem denotes_of_spells (hnorm : normalize py m = m) (h : rules.SpellsAlike a m) (hundone : Undone py a m) :
    Denotes py m a := by
  obtain ⟨r, hr, hmatch⟩ := h
  have hforms : ∀ form ∈ (if py.casefold (canon py a.text.val) = canon py a.text.val then [canon py a.text.val]
      else [canon py a.text.val, py.casefold (canon py a.text.val)]),
      form = canon py a.text.val ∨ form = py.casefold (canon py a.text.val) := by
    intro form hform
    split at hform
    · exact .inl (List.mem_singleton.mp hform)
    · simpa using hform
  have hne : (if py.casefold (canon py a.text.val) = canon py a.text.val then [canon py a.text.val]
      else [canon py a.text.val, py.casefold (canon py a.text.val)]) ≠ [] := by
    split <;> exact List.cons_ne_nil _ _
  unfold fragmentRxs at hr
  unfold Undone at hundone
  cases hkind : a.kind with
  | name | brand | person =>
    have hkey : keyOf py a = py.casefold (canon py a.text.val) := by
      unfold keyOf fragments
      rw [hkind]
      rfl
    rw [hkind] at hr hundone
    rw [List.mem_singleton.mp hr] at hmatch
    exact denotes_words rules hnorm hkey hundone hne hforms hmatch
  | ticker =>
    have hticker := a.ticker_valid hkind
    rw [hkind] at hr hundone
    by_cases hshort : Short py a
    · have hkey : keyOf py a = "S:" ++ canon py a.text.val := by
        unfold keyOf fragments
        rw [hkind]
        exact if_pos (decide_eq_true hshort)
      exact denotes_short rules hnorm hticker hkey (hundone hshort)
    · have hkey : keyOf py a = dotted (py.casefold (canon py a.text.val)) := by
        unfold keyOf fragments
        rw [hkind]
        exact if_neg fun h => hshort (of_decide_eq_true h)
      have hlong : (!decide ((py.sub r"\W" false (fun _ => "") (canon py a.text.val)).length ≤ shortTicker)) = true := by
        rw [Bool.not_eq_true', decide_eq_false_iff_not]
        exact hshort
      rw [List.mem_singleton.mp hr, hlong, canon_ticker rules hticker, List.map_map] at hmatch
      obtain ⟨u, v, hm, hu, hv⟩ := hmatch
      refine denotes_ticker rules hnorm hticker hkey hm ?_ (forall₂_join rules hv)
      rcases hu with hu | ⟨c, hu, hc⟩
      · exact .inl hu
      · exact .inr (by rw [hu, of_decide_eq_true hc])
  | cik =>
    have hkey : keyOf py a = "cik:" ++ toString (decimal (canon py a.text.val)) := by
      unfold keyOf fragments
      rw [hkind]
      rfl
    rw [hkind] at hr
    simp only [List.mem_cons, List.not_mem_nil, or_false] at hr
    rcases hr with rfl | rfl
    · obtain ⟨L, N, hm, ⟨k, I, rfl, hk, parts, rfl, hparts⟩, Z, D, rfl, hZ, hD⟩ := hmatch
      obtain ⟨zeros, rfl⟩ := Rx.matches_star_char.mp hZ
      have hD : D = (toString (decimal (canon py a.text.val))).toList := hD
      rw [hD] at hm
      exact denotes_labelled rules hnorm hkey hk (fun u hu => labelPart rules (hparts u hu)) hm
    · have hm : m.toList = (zfill 10 (toString (decimal (canon py a.text.val)))).toList := hmatch
      rw [zfill, String.toList_ofList] at hm
      exact denotes_padded rules hnorm hkey hm

end Rules
end Partitioner
end AsymmetricCommittee
