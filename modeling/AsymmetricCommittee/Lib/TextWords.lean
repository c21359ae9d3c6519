import AsymmetricCommittee.Lib.TextLines

/-! The words of a text, and texts whose words stand one blank apart. -/

namespace PyText

/-- The words of a list of characters. -/
def wordLists (cs : List Char) : List (List Char) := (cs.splitOnP isSpace).filter fun word => !word.isEmpty

/-- Characters and no blank. -/
def IsWord (w : List Char) : Prop := w ≠ [] ∧ ∀ c ∈ w, isSpace c = false

/-- A word that is written out. -/
theorem isWord_of_all {w : List Char} (hne : w ≠ []) (h : w.all (fun c => !isSpace c) = true) : IsWord w :=
  ⟨hne, fun c hc => by simpa using List.all_eq_true.mp h c hc⟩

theorem words_ofList (cs : List Char) : words (String.ofList cs) = (wordLists cs).map String.ofList := by
  rw [words, String.toList_ofList, wordLists]

theorem isWord_of_mem {cs w : List Char} (hw : w ∈ wordLists cs) : IsWord w := by
  obtain ⟨hmem, hne⟩ := List.mem_filter.mp hw
  exact ⟨by simpa using hne, not_of_mem_splitOnP hmem⟩

@[simp] theorem wordLists_nil : wordLists [] = [] := by simp [wordLists]

theorem wordLists_blank {b : Char} (hb : isSpace b = true) (rest : List Char) : wordLists (b :: rest) = wordLists rest := by
  simp [wordLists, List.splitOnP_cons_eq_if_modifyHead, hb]

theorem wordLists_word {w : List Char} (hw : IsWord w) : wordLists w = [w] := by
  simp [wordLists, List.splitOnP_eq_singleton hw.2, hw.1]

theorem wordLists_word_blank {w : List Char} (hw : IsWord w) {b : Char} (hb : isSpace b = true) (rest : List Char) :
    wordLists (w ++ b :: rest) = w :: wordLists rest := by
  simp [wordLists, List.splitOnP_append_cons_of_forall_mem hw.2 b hb rest, hw.1]

/-- Blanks between two words end the first. -/
theorem wordLists_word_blanks {w blanks : List Char} (hw : IsWord w) (hne : blanks ≠ [])
    (hblanks : ∀ b ∈ blanks, isSpace b = true) (rest : List Char) :
    wordLists (w ++ blanks ++ rest) = w :: wordLists rest := by
  obtain ⟨b, blanks, rfl⟩ := List.exists_cons_of_ne_nil hne
  obtain ⟨hb, htail⟩ := List.forall_mem_cons.mp hblanks
  rw [List.append_assoc, List.cons_append, wordLists_word_blank hw hb]
  congr 1
  clear hne hblanks
  induction blanks with
  | nil => rfl
  | cons b' blanks ih =>
    obtain ⟨hb', htail⟩ := List.forall_mem_cons.mp htail
    rw [List.cons_append, wordLists_blank hb', ih htail]

/-- `" ".join(text.split())`, as a list. -/
theorem toList_squeeze (cs : List Char) : (squeeze (String.ofList cs)).toList = [' '].intercalate (wordLists cs) := by
  rw [squeeze, String.toList_intercalate, words_ofList, List.map_map]
  have htoList : String.toList ∘ String.ofList = id := by
    funext l
    exact String.toList_ofList
  rw [htoList, List.map_id]
  rfl

theorem squeeze_word {w : List Char} (hw : IsWord w) : squeeze (String.ofList w) = String.ofList w := by
  rw [← String.toList_inj, toList_squeeze, wordLists_word hw, String.toList_ofList]
  simp [List.intercalate]

/-! ### Squeezed texts -/

/-- Words one blank apart. -/
def Squeezed (cs : List Char) : Prop := ∃ ws : List (List Char), cs = [' '].intercalate ws ∧ ∀ w ∈ ws, IsWord w

theorem squeezed_squeeze (text : String) : Squeezed (squeeze text).toList := by
  refine ⟨wordLists text.toList, ?_, fun w hw => isWord_of_mem hw⟩
  rw [← toList_squeeze, String.ofList_toList]

theorem blank_not_mem {w : List Char} (hw : IsWord w) : ' ' ∉ w := fun hmem => by
  have hblank := hw.2 ' ' hmem
  exact absurd hblank (by decide)

/-- What a squeezed text is split into at its blanks: its words. -/
theorem splitOn_intercalate_words {ws : List (List Char)} (hne : ws ≠ []) (hws : ∀ w ∈ ws, IsWord w) :
    ([' '].intercalate ws).splitOn ' ' = ws :=
  List.splitOn_intercalate ' ' (fun w hw => blank_not_mem (hws w hw)) hne

theorem wordLists_intercalate {ws : List (List Char)} (hws : ∀ w ∈ ws, IsWord w) :
    wordLists ([' '].intercalate ws) = ws := by
  induction ws with
  | nil => rfl
  | cons w ws ih =>
    obtain ⟨hw, hws⟩ := List.forall_mem_cons.mp hws
    cases ws with
    | nil => rw [List.intercalate_singleton, wordLists_word hw]
    | cons w' ws =>
      rw [List.intercalate_cons_cons, List.append_assoc, List.singleton_append, wordLists_word_blank hw (by decide), ih hws]

/-- A squeezed text is its own. -/
theorem squeeze_of_squeezed {cs : List Char} (h : Squeezed cs) : squeeze (String.ofList cs) = String.ofList cs := by
  obtain ⟨ws, rfl, hws⟩ := h
  rw [← String.toList_inj, toList_squeeze, wordLists_intercalate hws, String.toList_ofList]

/-- Squeezing a text of words and blanks that ends in a word takes away some of the blanks. -/
theorem toList_squeeze_parts {tail : List Char} (htail : IsWord tail) {parts : List (List Char)}
    (hparts : ∀ u ∈ parts, IsWord u ∨ ∃ c, isSpace c = true ∧ u = [c]) {w : List Char} (hw : ∀ c ∈ w, isSpace c = false) :
    ∃ parts' : List (List Char), (squeeze (String.ofList (w ++ parts.flatten ++ tail))).toList = w ++ parts'.flatten ++ tail ∧
      ∀ u ∈ parts', u = [' '] ∨ (u ∈ parts ∧ IsWord u) := by
  induction parts generalizing w with
  | nil =>
    have hword : IsWord (w ++ tail) :=
      ⟨List.append_ne_nil_of_right_ne_nil w htail.1, List.forall_mem_append.mpr ⟨hw, htail.2⟩⟩
    refine ⟨[], ?_, fun u hu => absurd hu List.not_mem_nil⟩
    rw [List.flatten_nil, List.append_nil, squeeze_word hword, String.toList_ofList]
  | cons part parts ih =>
    obtain ⟨hpart, hrest⟩ := List.forall_mem_cons.mp hparts
    rcases hpart with hword | ⟨c, hc, rfl⟩
    · obtain ⟨parts', heq, hmem⟩ := ih hrest (List.forall_mem_append.mpr ⟨hw, hword.2⟩)
      refine ⟨part :: parts', ?_, List.forall_mem_cons.mpr ⟨.inr ⟨List.mem_cons_self, hword⟩, fun u hu => ?_⟩⟩
      · rw [List.flatten_cons, ← List.append_assoc w, heq, List.flatten_cons, ← List.append_assoc w]
      · exact (hmem u hu).imp_right (And.imp_left (List.mem_cons_of_mem part))
    · obtain ⟨parts', heq, hmem⟩ := ih hrest (w := []) fun c hc => absurd hc List.not_mem_nil
      have hkeep : ∀ u ∈ parts', u = [' '] ∨ (u ∈ [c] :: parts ∧ IsWord u) := fun u hu =>
        (hmem u hu).imp_right (And.imp_left (List.mem_cons_of_mem [c]))
      rw [List.nil_append, List.nil_append, toList_squeeze] at heq
      cases w with
      | nil =>
        refine ⟨parts', ?_, hkeep⟩
        rw [List.nil_append, List.nil_append, toList_squeeze, List.flatten_cons, List.singleton_append, List.cons_append,
          wordLists_blank hc, heq]
      | cons d w =>
        -- a blank after a word stays as one blank
        have hhead : IsWord (d :: w) := ⟨List.cons_ne_nil d w, hw⟩
        refine ⟨[' '] :: parts', ?_, List.forall_mem_cons.mpr ⟨.inl rfl, hkeep⟩⟩
        have htext : d :: w ++ ([c] :: parts).flatten ++ tail = d :: w ++ c :: (parts.flatten ++ tail) := by
          rw [List.flatten_cons, List.singleton_append, List.append_assoc, List.cons_append (a := c)]
        rw [toList_squeeze, htext, wordLists_word_blank hhead hc]
        obtain ⟨first, rest, hwords⟩ : ∃ first rest, wordLists (parts.flatten ++ tail) = first :: rest := by
          refine List.exists_cons_of_ne_nil fun hnil => ?_
          rw [hnil] at heq
          exact List.append_ne_nil_of_right_ne_nil _ htail.1 heq.symm
        rw [hwords, List.intercalate_cons_cons, ← hwords, heq, List.flatten_cons]
        simp only [List.append_assoc]

end PyText
