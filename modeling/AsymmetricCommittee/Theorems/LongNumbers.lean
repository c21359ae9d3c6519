import AsymmetricCommittee.Features.Scrubbing

/-! Long numbers in scrubbed text. The last pass of the scrubber takes the longest number at every place that no character
    of a word and no dot precedes. What is left of four or more digits follows one of these. -/

namespace AsymmetricCommittee
namespace Renderer

variable {T : CharTables} {py : PyText}

/-- A digit or a separator of thousands. -/
def grouped (T : CharTables) (c : Char) : Bool := T.isDigit c || c = ','

/-- What may follow the first digit of a whole number. -/
def IsTail (T : CharTables) (w : List Char) : Prop :=
  w = [] ∨ (∀ c ∈ w, grouped T c = true) ∧ ∃ v d, w = v ++ [d] ∧ T.isDigit d = true

/-- The decimals of a number, if any. -/
def IsFraction (T : CharTables) (w : List Char) : Prop :=
  w = [] ∨ ∃ ds, w = '.' :: ds ∧ ds ≠ [] ∧ ∀ c ∈ ds, T.isDigit c = true

/-- A number: digits with optional separators of thousands and decimals. -/
def IsNumber (T : CharTables) (m : List Char) : Prop :=
  ∃ d w fraction, m = d :: w ++ fraction ∧ T.isDigit d = true ∧ IsTail T w ∧ IsFraction T fraction

/-- The tables of Unicode as far as the scrubber needs them. -/
structure DigitRules (py : PyText) (T : CharTables) : Prop where
  word : ∀ c, T.isDigit c = true → T.isWord c = true
  digit : ∀ c, T.isDigit c = true → py.isDigit c = true
  ascii : ∀ c, c.toNat < 128 → T.isDigit c = c.isDigit

/-! ### The longest number -/

/-- The longest beginning of a text that is of a kind. -/
def Longest (P : List Char → Prop) (rest m : List Char) : Prop :=
  P m ∧ m <+: rest ∧ ∀ n, P n → n <+: rest → n <+: m

theorem ways_digit {before rest : List Char} {d : Char} (hd : T.isDigit d = true) :
    Pat.ways T false (digitPat T) ⟨before, d :: rest, none⟩ = [⟨before ++ [d], rest, none⟩] := by
  simp only [digitPat, Pat.ways, hd, if_true]

theorem ways_digit_head {before rest : List Char} {e : Place}
    (h : (Pat.ways T false (digitPat T) ⟨before, rest, none⟩).head? = some e) :
    ∃ d after, rest = d :: after ∧ T.isDigit d = true ∧ e = ⟨before ++ [d], after, none⟩ := by
  cases rest with
  | nil => cases h
  | cons d after =>
    by_cases hd : T.isDigit d = true
    · rw [ways_digit hd] at h
      exact ⟨d, after, rfl, hd, (Option.some.inj h).symm⟩
    · simp [digitPat, Pat.ways, hd] at h

/-- `[\d,]*\d` -/
def groupedPat (T : CharTables) : Pat := Pat.cat [.many r"[\d,]*" (grouped T) 0 none, digitPat T]

theorem IsTail.reading {n rest : List Char} (hn : IsTail T n) ( hprefix : n <+: rest) :
    n = [] ∨ ∃ v d later, n = v ++ [d] ∧ T.isDigit d = true ∧ Pat.Reading (grouped T) 0 none rest v (d :: later) := by
  rcases hn with rfl | ⟨hall, v, d, rfl, hd⟩
  · exact .inl rfl
  · obtain ⟨later, hlater⟩ := hprefix
    refine .inr ⟨v, d, later, rfl, hd, ?_, fun c hc => hall c (List.mem_append_left _ hc), rfl⟩
    rw [← hlater, List.append_assoc, List.singleton_append]

/-- The ways of `(?:[\d,]*\d)?` begin with the longest. -/
theorem tail_first (T : CharTables) (before rest : List Char) : ∃ w after, rest = w ++ after ∧ Longest (IsTail T) rest w ∧
    (Pat.ways T false (.opt (.group (groupedPat T))) ⟨before, rest, none⟩).head? = some ⟨before ++ w, after, none⟩ := by
  rw [Pat.head_opt]
  change ∃ w after, rest = w ++ after ∧ Longest (IsTail T) rest w ∧
    (Pat.ways T false (groupedPat T) ⟨before, rest, none⟩).head?.or (some ⟨before, rest, none⟩) =
      some ⟨before ++ w, after, none⟩
  rcases hfind : (Pat.ways T false (groupedPat T) ⟨before, rest, none⟩).head? with - | e
  · refine ⟨[], rest, rfl, ⟨.inl rfl, List.nil_prefix, fun n hn hprefix => ?_⟩, by rw [List.append_nil, Option.none_or]⟩
    rcases hn.reading hprefix with rfl | ⟨v, d, later, rfl, hd, hread⟩
    · exact List.nil_prefix
    · have hno : Pat.ways T false (digitPat T) ⟨before ++ v, d :: later, none⟩ = [] := Pat.head_many_seq_none hfind hread
      rw [ways_digit hd] at hno
      cases hno
  · obtain ⟨w, after, ⟨hrest, hall, -⟩, hway, hlonger⟩ := Pat.head_many_seq hfind
    obtain ⟨d, later, rfl, hd, rfl⟩ := ways_digit_head hway
    have hrest : rest = w ++ [d] ++ later := by rw [List.append_assoc, List.singleton_append]; exact hrest
    have htail : IsTail T (w ++ [d]) := by
      refine .inr ⟨fun c hc => ?_, w, d, rfl, hd⟩
      rcases List.mem_append.mp hc with hc | hc
      · exact hall c hc
      · rw [List.mem_singleton.mp hc, grouped, hd, Bool.true_or]
    refine ⟨w ++ [d], later, hrest, ⟨htail, ⟨later, hrest.symm⟩, fun n hn hprefix => ?_⟩, ?_⟩
    · rcases hn.reading hprefix with rfl | ⟨v, d', later', rfl, hd', hread⟩
      · exact List.nil_prefix
      · have hle : v.length ≤ w.length := by
          by_contra hlt
          have hno : Pat.ways T false (digitPat T) ⟨before ++ v, d' :: later', none⟩ = [] :=
            hlonger v _ hread (Nat.lt_of_not_le hlt)
          rw [ways_digit hd'] at hno
          cases hno
        refine List.prefix_of_prefix_length_le hprefix ⟨later, hrest.symm⟩ ?_
        rw [List.length_append, List.length_append]
        exact Nat.add_le_add_right hle _
    · rw [Option.some_or, List.append_assoc]

/-- `\.\d+` -/
def decimalsPat (T : CharTables) : Pat := Pat.cat [dotPat, .many r"\d+" T.isDigit 1 none]

theorem ways_decimals (before rest : List Char) : (Pat.ways T false (decimalsPat T) ⟨before, '.' :: rest, none⟩).head? =
    (Pat.ways T false (.many r"\d+" T.isDigit 1 none) ⟨before ++ ['.'], rest, none⟩).head? := by
  change ([⟨before ++ ['.'], rest, none⟩].flatMap fun e => Pat.ways T false (.many r"\d+" T.isDigit 1 none) e).head? = _
  rw [List.flatMap_singleton]

/-- Decimals begin with a dot that digits follow. -/
theorem IsFraction.reading {n rest : List Char} (hn : IsFraction T n) ( hprefix : n <+: rest) :
    n = [] ∨ ∃ ds later rest', n = '.' :: ds ∧ rest = '.' :: rest' ∧ Pat.Reading T.isDigit 1 none rest' ds later := by
  rcases hn with rfl | ⟨ds, rfl, hne, hall⟩
  · exact .inl rfl
  · obtain ⟨later, hlater⟩ := hprefix
    refine .inr ⟨ds, later, ds ++ later, rfl, hlater.symm, rfl, hall, ?_⟩
    rw [Pat.within, Bool.and_eq_true, decide_eq_true_eq]
    exact ⟨List.length_pos_iff.mpr hne, rfl⟩

/-- The ways of `(?:\.\d+)?` begin with the longest. -/
theorem fraction_first (T : CharTables) (before rest : List Char) : ∃ w after, rest = w ++ after ∧
    Longest (IsFraction T) rest w ∧
    (Pat.ways T false (.opt (.group (decimalsPat T))) ⟨before, rest, none⟩).head? = some ⟨before ++ w, after, none⟩ := by
  rw [Pat.head_opt]
  change ∃ w after, rest = w ++ after ∧ Longest (IsFraction T) rest w ∧
    (Pat.ways T false (decimalsPat T) ⟨before, rest, none⟩).head?.or (some ⟨before, rest, none⟩) =
      some ⟨before ++ w, after, none⟩
  -- without decimals there is nothing to read
  have hstop : (Pat.ways T false (decimalsPat T) ⟨before, rest, none⟩).head? = none →
      (∀ ds later rest', rest = '.' :: rest' → ¬Pat.Reading T.isDigit 1 none rest' ds later) →
      ∃ w after, rest = w ++ after ∧ Longest (IsFraction T) rest w ∧
        (Pat.ways T false (decimalsPat T) ⟨before, rest, none⟩).head?.or (some ⟨before, rest, none⟩) =
          some ⟨before ++ w, after, none⟩ := by
    intro hnone hno
    refine ⟨[], rest, rfl, ⟨.inl rfl, List.nil_prefix, fun n hn hprefix => ?_⟩, by
      rw [hnone, List.append_nil, Option.none_or]⟩
    rcases hn.reading hprefix with rfl | ⟨ds, later, rest', rfl, hrest, hread⟩
    · exact List.nil_prefix
    · exact absurd hread (hno ds later rest' hrest)
  rcases rest with - | ⟨c, rest⟩
  · exact hstop rfl fun ds later rest' hrest => absurd hrest (List.cons_ne_nil _ _).symm
  · by_cases hdot : c = '.'
    · subst hdot
      have hways := ways_decimals (T := T) before rest
      rcases hfind : (Pat.ways T false (.many r"\d+" T.isDigit 1 none) ⟨before ++ ['.'], rest, none⟩).head? with - | e
      · refine hstop (hways.trans hfind) fun ds later rest' hrest => ?_
        rw [← (List.cons.inj hrest).2]
        exact Pat.head_many_none hfind
      · obtain ⟨ds, after, ⟨hrest, hall, hlen⟩, rfl, hlonger⟩ := Pat.head_many hfind
        have hrest : rest = ds ++ after := hrest
        have hne : ds ≠ [] := by
          rintro rfl
          cases hlen
        refine ⟨'.' :: ds, after, by rw [hrest]; rfl, ⟨.inr ⟨ds, rfl, hne, hall⟩, ?_, fun n hn hprefix => ?_⟩, ?_⟩
        · exact ⟨after, by rw [hrest]; rfl⟩
        · rcases hn.reading hprefix with rfl | ⟨ds', later, rest', rfl, hrest', hread⟩
          · exact List.nil_prefix
          · rw [← (List.cons.inj hrest').2] at hread
            have hle := hlonger ds' later hread
            refine List.cons_prefix_cons.mpr ⟨rfl, ?_⟩
            exact List.prefix_of_prefix_length_le ⟨later, hread.1.symm⟩ ⟨after, hrest.symm⟩ hle
        · rw [hways, hfind, Option.some_or, List.append_assoc]
          rfl
    · refine hstop ?_ fun ds later rest' hrest => absurd (List.cons.inj hrest).1 hdot
      simp [decimalsPat, Pat.cat, Pat.ways, dotPat, hdot]

section
variable (rules : DigitRules py T)
include rules

theorem DigitRules.dot : T.isDigit '.' = false := (rules.ascii '.' (by decide)).trans (by decide)

theorem DigitRules.comma : T.isDigit ',' = false := (rules.ascii ',' (by decide)).trans (by decide)

theorem DigitRules.grouped_dot : grouped T '.' = false := by rw [grouped, rules.dot]; rfl

/-- The longest whole part and its longest decimals are the longest number. -/
theorem longest_number {d : Char} {w fraction rest : List Char} (hd : T.isDigit d = true)
    (hw : Longest (IsTail T) (w ++ rest) w) (hfraction : Longest (IsFraction T) rest fraction) :
    Longest (IsNumber T) (d :: w ++ rest) (d :: w ++ fraction) := by
  refine ⟨⟨d, w, fraction, rfl, hd, hw.1, hfraction.1⟩, ?_, fun n hn hprefix => ?_⟩
  · exact (List.prefix_append_right_inj _).mpr hfraction.2.1
  · obtain ⟨d', w', fraction', rfl, -, hw', hfraction'⟩ := hn
    rw [List.cons_append, List.cons_append] at hprefix
    obtain ⟨rfl, htails⟩ := List.cons_prefix_cons.mp hprefix
    rw [List.cons_append, List.cons_append, List.cons_prefix_cons]
    refine ⟨rfl, ?_⟩
    obtain ⟨u, rfl⟩ := hw.2.2 w' hw' ((List.prefix_append w' fraction').trans htails)
    rw [List.append_assoc] at htails ⊢
    have hleft := (List.prefix_append_right_inj w').mp htails
    refine (List.prefix_append_right_inj w').mpr ?_
    rcases u with - | ⟨c, u⟩
    · exact hfraction.2.2 fraction' hfraction' hleft
    · rcases hfraction' with rfl | ⟨ds, rfl, -⟩
      · exact List.nil_prefix
      · -- the whole part goes on where these decimals begin
        have hc : c = '.' := (List.cons_prefix_cons.mp hleft).1.symm
        rcases hw.1 with hnil | ⟨hall, -⟩
        · exact absurd (List.append_eq_nil_iff.mp hnil).2 (List.cons_ne_nil c u)
        · have hdot := hall c (List.mem_append_right _ List.mem_cons_self)
          rw [hc, rules.grouped_dot] at hdot
          cases hdot

/-- The number that begins at a digit is the longest. -/
theorem number_first {d : Char} (hd : T.isDigit d = true) (before rest : List Char) :
    ∃ m after, d :: rest = m ++ after ∧ Longest (IsNumber T) (d :: rest) m ∧
      (Pat.ways T false (numberPat T) ⟨before, d :: rest, none⟩).head? = some ⟨before ++ m, after, none⟩ := by
  obtain ⟨w, afterTail, rfl, hw, htail⟩ := tail_first T (before ++ [d]) rest
  obtain ⟨fraction, after, rfl, hfraction, hdecimals⟩ := fraction_first T (before ++ [d] ++ w) afterTail
  refine ⟨d :: w ++ fraction, after, by rw [List.append_assoc]; rfl, longest_number rules hd hw hfraction, ?_⟩
  have hdigit : (Pat.ways T false (digitPat T) ⟨before, d :: (w ++ (fraction ++ after)), none⟩).head? =
      some ⟨before ++ [d], w ++ (fraction ++ after), none⟩ := by
    rw [ways_digit hd, List.head?_cons]
  have hnumber := Pat.head_seq hdigit (Pat.head_seq htail hdecimals)
  have hbefore : before ++ (d :: w ++ fraction) = before ++ [d] ++ w ++ fraction := by
    simp only [List.append_assoc, List.cons_append, List.nil_append]
  rw [hbefore]
  exact hnumber

/-- Where the last pass matches: after nothing that glues, and the longest number. -/
theorem at_longNumber {before m after : List Char} (h : Pat.At T false (longNumberPat T) before m after) :
    Longest (IsNumber T) (m ++ after) m := by
  obtain ⟨hne, e, hfirst, rfl⟩ := h
  rcases m with - | ⟨d, m⟩
  · exact absurd rfl hne
  · have hmem := List.mem_of_mem_head? hfirst
    rw [longNumberPat, Pat.ways, List.mem_flatMap] at hmem
    obtain ⟨e', he', hway⟩ := hmem
    rw [Pat.ways] at he'
    split at he'
    · cases he'
    · next hglue =>
      rw [List.mem_singleton.mp he'] at hway
      have hd : T.isDigit d = true := by
        obtain ⟨mid, hmid, -⟩ := List.mem_flatMap.mp hway
        by_contra hd
        simp [digitPat, Pat.ways, hd] at hmid
      obtain ⟨n, after, hsplit, hlongest, hnumber⟩ := number_first rules hd before (m ++ e.rest)
      have hhead : Pat.first T false (longNumberPat T) before (d :: m ++ e.rest) = some ⟨before ++ n, after, none⟩ := by
        refine Pat.head_seq ?_ hnumber
        rw [Pat.ways, if_neg hglue]
        rfl
      rw [hfirst] at hhead
      cases hhead
      have hn : n = d :: m := (List.append_cancel_right hsplit).symm
      rw [← hn]
      exact hn ▸ hlongest

theorem exists_longNumber {before rest : List Char} {d : Char} (hd : T.isDigit d = true)
    (hglue : before.getLast?.any (glued T) = false) :
    ∃ m after, m ≠ [] ∧ d :: rest = m ++ after ∧ Pat.At T false (longNumberPat T) before m after := by
  obtain ⟨m, after, hsplit, hlongest, hnumber⟩ := number_first rules hd before rest
  obtain ⟨d', w, fraction, rfl, -⟩ := hlongest.1
  have hfirst : Pat.first T false (longNumberPat T) before (d :: rest) = some ⟨before ++ (d' :: w ++ fraction), after, none⟩ := by
    refine Pat.head_seq ?_ hnumber
    rw [Pat.ways, hglue]
    rfl
  rw [hsplit] at hfirst
  exact ⟨_, after, List.cons_ne_nil _ _, hsplit, List.cons_ne_nil _ _, _, hfirst, rfl⟩

end

/-- No digit follows the longest number. -/
theorem longest_no_digit {m after : List Char} (h : Longest (IsNumber T) (m ++ after) m) :
    ∀ c ∈ after.head?, T.isDigit c = false := by
  intro c hc
  rcases after with - | ⟨d, after⟩
  · cases hc
  · have hcd : d = c := Option.some.inj hc
    subst hcd
    by_contra hdigit
    have hd : T.isDigit d = true := Bool.eq_true_of_not_eq_false hdigit
    have hlonger : IsNumber T (m ++ [d]) := by
      obtain ⟨d', w, fraction, rfl, hd', hw, hfraction⟩ := h.1
      rcases hfraction with rfl | ⟨ds, rfl, hne, hall⟩
      · refine ⟨d', w ++ [d], [], ?_, hd', .inr ⟨fun c hc => ?_, w, d, rfl, hd⟩, .inl rfl⟩
        · rw [List.append_nil, List.append_nil]
          rfl
        · rcases List.mem_append.mp hc with hc | hc
          · rcases hw with rfl | ⟨hall, -⟩
            · cases hc
            · exact hall c hc
          · rw [List.mem_singleton.mp hc, grouped, hd, Bool.true_or]
      · refine ⟨d', w, '.' :: (ds ++ [d]), by rw [List.append_assoc]; rfl, hd', hw, .inr ⟨_, rfl, ?_, fun c hc => ?_⟩⟩
        · exact List.append_ne_nil_of_right_ne_nil _ (List.cons_ne_nil _ _)
        · rcases List.mem_append.mp hc with hc | hc
          · exact hall c hc
          · rw [List.mem_singleton.mp hc, hd]
    have hprefix : m ++ [d] <+: m ++ d :: after := ⟨after, by rw [List.append_assoc]; rfl⟩
    have hle := (h.2.2 _ hlonger hprefix).length_le
    rw [List.length_append, List.length_singleton] at hle
    exact absurd hle (Nat.not_succ_le_self _)

/-! ### The last pass -/

/-- What a number is written with. -/
def numberChar (T : CharTables) (c : Char) : Bool := grouped T c || c = '.'

theorem IsNumber.chars {m : List Char} (hm : IsNumber T m) : ∀ c ∈ m, numberChar T c = true := by
  obtain ⟨d, w, fraction, rfl, hd, hw, hfraction⟩ := hm
  have hdigit : ∀ c, T.isDigit c = true → numberChar T c = true := fun c hc => by rw [numberChar, grouped, hc]; rfl
  intro c hc
  rcases List.mem_append.mp hc with hc | hc
  · rcases List.mem_cons.mp hc with rfl | hc
    · exact hdigit _ hd
    · rcases hw with rfl | ⟨hall, -⟩
      · cases hc
      · rw [numberChar, hall c hc, Bool.true_or]
  · rcases hfraction with rfl | ⟨ds, rfl, -, hall⟩
    · cases hc
    · rcases List.mem_cons.mp hc with rfl | hc
      · rw [numberChar, decide_eq_true rfl, Bool.or_true]
      · exact hdigit c (hall c hc)

/-- What a match of the last pass becomes. -/
def numberOut (py : PyText) (m : List Char) : List Char := (longNumber py ⟨String.ofList m, []⟩).toList

theorem numberOut_eq (py : PyText) (m : List Char) :
    numberOut py m = if minLongDigits ≤ (m.filter py.isDigit).length then "[NUM]".toList else m := by
  rw [numberOut, longNumber, String.toList_ofList]
  split
  · rfl
  · rw [String.toList_ofList]

section
variable (rules : DigitRules py T)
include rules

theorem numberChar_placeholder : ∀ c ∈ "[NUM]".toList, numberChar T c = false := by
  intro c hc
  have hmarks : c = '[' ∨ c = 'N' ∨ c = 'U' ∨ c = 'M' ∨ c = ']' := by simpa using hc
  have hascii : c.toNat < 128 ∧ c.isDigit = false ∧ c ≠ ',' ∧ c ≠ '.' := by
    rcases hmarks with rfl | rfl | rfl | rfl | rfl <;> decide
  obtain ⟨hlow, hdigit, hcomma, hdot⟩ := hascii
  rw [numberChar, grouped, rules.ascii c hlow, hdigit, decide_eq_false hcomma, decide_eq_false hdot]
  rfl

/-- What is written as a number after the pass was written so before it. -/
theorem prefix_before_pass {pieces : List Rx.Piece} {n : List Char} (hn : ∀ c ∈ n, numberChar T c = true)
    (h : n <+: pieces.flatMap (Rx.Piece.out (numberOut py))) : n <+: pieces.flatMap Rx.Piece.text := by
  induction pieces generalizing n with
  | nil => exact h
  | cons p pieces ih =>
    rw [List.flatMap_cons] at h ⊢
    rcases n with - | ⟨c, n⟩
    · exact List.nil_prefix
    cases p with
    | kept c' =>
      obtain ⟨rfl, htail⟩ := List.cons_prefix_cons.mp h
      exact List.cons_prefix_cons.mpr ⟨rfl, ih (fun x hx => hn x (List.mem_cons_of_mem _ hx)) htail⟩
    | hit m =>
      rw [Rx.Piece.out, numberOut_eq] at h
      split at h
      · -- a placeholder is not a number
        have hc : c = '[' := (List.cons_prefix_cons.mp h).1
        have hno := numberChar_placeholder rules c (by rw [hc]; simp)
        rw [hn c List.mem_cons_self] at hno
        cases hno
      · rw [Rx.Piece.text]
        obtain ⟨later, hlater⟩ := h
        rcases List.append_eq_append_iff.mp hlater with ⟨u, rfl, -⟩ | ⟨u, hu, hout⟩
        · rw [List.append_assoc]
          exact List.prefix_append _ _
        · rw [hu] at hn ⊢
          refine (List.prefix_append_right_inj m).mpr (ih (fun x hx => hn x (List.mem_append_right _ hx)) ?_)
          exact ⟨later, hout.symm⟩

/-- A number and a comma go on with a number. -/
theorem IsNumber.extend {h m u v : List Char} (hh : IsNumber T h) (hsplit : h = u ++ [','] ++ v) (hm : IsNumber T m) :
    IsNumber T (u ++ [','] ++ m) := by
  obtain ⟨d, w, fraction, rfl, hd, hw, hfraction⟩ := hh
  obtain ⟨d₂, w₂, fraction₂, rfl, hd₂, hw₂, hfraction₂⟩ := hm
  rcases u with - | ⟨d', u⟩
  · -- the number does not begin with the comma
    rw [(List.cons.inj hsplit).1, rules.comma] at hd
    cases hd
  · obtain ⟨rfl, htail⟩ := List.cons.inj hsplit
    have hrest : w ++ fraction = u ++ ',' :: v := by
      refine htail.trans ?_
      rw [List.append_eq, List.append_eq, List.append_assoc]
      rfl
    have hdecimals : ',' ∉ fraction := by
      intro hmem
      rcases hfraction with rfl | ⟨ds, rfl, -, hall⟩
      · cases hmem
      · rcases List.mem_cons.mp hmem with heq | hmem
        · exact absurd heq (by decide)
        · have hdigit := hall _ hmem
          rw [rules.comma] at hdigit
          cases hdigit
    have hgrouped : ∀ c ∈ u ++ [','], grouped T c = true := by
      rcases List.append_eq_append_iff.mp hrest with ⟨x, -, hx⟩ | ⟨x, hx, hx'⟩
      · exact absurd (hx ▸ List.mem_append_right _ List.mem_cons_self) hdecimals
      · rcases x with - | ⟨c, x⟩
        · rw [List.nil_append] at hx'
          exact absurd (hx' ▸ List.mem_cons_self) hdecimals
        · obtain ⟨rfl, -⟩ := List.cons.inj hx'
          rcases hw with rfl | ⟨hall, -⟩
          · exact absurd (List.append_eq_nil_iff.mp hx.symm).2 (List.cons_ne_nil _ _)
          · intro c hc
            refine hall c (hx ▸ ?_)
            rcases List.mem_append.mp hc with hc | hc
            · exact List.mem_append_left _ hc
            · rw [List.mem_singleton.mp hc]
              exact List.mem_append_right _ List.mem_cons_self
    refine ⟨d, u ++ [','] ++ d₂ :: w₂, fraction₂, ?_, hd, .inr ⟨fun c hc => ?_, ?_⟩, hfraction₂⟩
    · simp only [List.append_assoc, List.cons_append, List.nil_append]
    · rcases List.mem_append.mp hc with hc | hc
      · exact hgrouped c hc
      · rcases List.mem_cons.mp hc with rfl | hc
        · rw [grouped, hd₂, Bool.true_or]
        · rcases hw₂ with rfl | ⟨hall, -⟩
          · cases hc
          · exact hall c hc
    · rcases hw₂ with rfl | ⟨-, v₂, x, rfl, hx⟩
      · exact ⟨u ++ [','], d₂, rfl, hd₂⟩
      · exact ⟨u ++ [','] ++ d₂ :: v₂, x, by simp only [List.append_assoc, List.cons_append], hx⟩

/-- A number that begins within another, and not after what glues, goes on with it. -/
theorem number_from_left {n left m u written : List Char} {c : Char} (hn : IsNumber T n) (hsplit : n = left ++ c :: u)
    (hm : IsNumber T m) (hglue : (written ++ left).getLast?.any (glued T) = false) : IsNumber T (left ++ m) := by
  rcases List.eq_nil_or_concat left with rfl | ⟨l, x, rfl⟩
  · exact hm
  · rw [List.concat_eq_append] at hsplit hglue ⊢
    rw [← List.append_assoc, List.getLast?_concat, Option.any_some, glued, Bool.or_eq_false_iff] at hglue
    have hx : numberChar T x = true := hn.chars x (hsplit ▸ List.mem_append_left _ (List.mem_append_right _ List.mem_cons_self))
    rw [numberChar, hglue.2, Bool.or_false, grouped, Bool.or_eq_true] at hx
    rcases hx with hdigit | hcomma
    · rw [rules.word x hdigit] at hglue
      cases hglue.1
    · rw [of_decide_eq_true hcomma] at hsplit ⊢
      exact hn.extend rules hsplit hm

/-- The pass leaves no number of four or more digits but after what glues. The first text is what comes before: what the
    pass has written so far ends as what it has read, before a digit. -/
theorem scan_long_numbers {read written rest : List Char} {pieces : List Rx.Piece}
    (h : Rx.Scan (Pat.At T false (longNumberPat T)) read rest pieces)
    (hsame : ∀ c ∈ rest.head?, T.isDigit c = true → written.getLast? = read.getLast?)
    {left m right : List Char} (hout : pieces.flatMap (Rx.Piece.out (numberOut py)) = left ++ m ++ right)
    (hm : IsNumber T m) (hlong : minLongDigits ≤ m.countP T.isDigit) :
    (written ++ left).getLast?.any (glued T) = true := by
  induction h generalizing written left with
  | done read =>
    obtain ⟨d, w, fraction, rfl, -⟩ := hm
    have hnil := (List.append_eq_nil_iff.mp (List.append_eq_nil_iff.mp hout.symm).1).2
    cases hnil
  | @keep read rest c pieces hno hrest ih =>
    rw [List.flatMap_cons, Rx.Piece.out, List.singleton_append] at hout
    rcases left with - | ⟨c', left⟩
    · obtain ⟨d, w, fraction, rfl, hd, -⟩ := hm
      obtain ⟨rfl, -⟩ := List.cons.inj hout
      by_contra hglue
      rw [List.append_nil, hsame c rfl hd, Bool.not_eq_true] at hglue
      -- the last pass would match here
      obtain ⟨n, after, hne, hsplit, hat⟩ := exists_longNumber rules hd hglue
      exact hno n after hne hsplit hat
    · obtain ⟨rfl, htail⟩ := List.cons.inj hout
      have hlast : ∀ c' ∈ rest.head?, T.isDigit c' = true →
          (written ++ [c]).getLast? = (read ++ [c]).getLast? :=
        fun _ _ _ => by rw [List.getLast?_concat, List.getLast?_concat]
      have hstep := ih hlast htail
      rwa [List.append_assoc, List.singleton_append] at hstep
  | @hit read n after pieces hn hrest ih =>
    have hlongest := at_longNumber rules hn
    have hstop : ∀ c ∈ after.head?, T.isDigit c = true →
        (written ++ numberOut py n).getLast? = (read ++ n).getLast? := fun c hc hd => by
      rw [longest_no_digit hlongest c hc] at hd
      cases hd
    have hout' := hout
    rw [List.flatMap_cons, Rx.Piece.out, List.append_assoc] at hout
    -- the number is in what comes later, or begins in what became of this match
    rcases List.append_eq_append_iff.mp hout with ⟨u, rfl, hlater⟩ | ⟨u, hhere, hlater⟩
    · rw [← List.append_assoc] at hlater ⊢
      exact ih hstop hlater
    · rcases u with - | ⟨c₀, u⟩
      · -- it begins right after the match
        rw [List.append_nil] at hhere
        rw [← hhere, ← List.append_nil (written ++ _)]
        exact ih hstop hlater.symm
      · have hbegin : m.head? = some c₀ := by
          obtain ⟨d, w, fraction, rfl, -⟩ := hm
          exact congrArg some (List.cons.inj hlater).1
        have hnumber : numberChar T c₀ = true := hm.chars c₀ (List.mem_of_mem_head? hbegin)
        rw [numberOut_eq] at hhere
        split at hhere
        · -- a placeholder has nothing to begin with
          have hmem : c₀ ∈ "[NUM]".toList := hhere ▸ List.mem_append_right _ List.mem_cons_self
          rw [numberChar_placeholder rules c₀ hmem] at hnumber
          cases hnumber
        · next hshort =>
          by_contra hglue
          rw [Bool.not_eq_true] at hglue
          have hwhole : IsNumber T (left ++ m) := number_from_left rules hlongest.1 hhere hm hglue
          have hprefix : left ++ m <+: n ++ after := by
            have hpieces := prefix_before_pass rules hwhole.chars ⟨right, hout'.symm⟩
            rwa [List.flatMap_cons, Rx.Piece.text, hrest.text_eq] at hpieces
          have hin : left ++ m <+: n := hlongest.2.2 _ hwhole hprefix
          have hcount : m.countP T.isDigit ≤ (n.filter py.isDigit).length := by
            have hm' : m.countP T.isDigit ≤ (left ++ m).countP T.isDigit := by
              rw [List.countP_append]
              exact Nat.le_add_left _ _
            rw [← List.countP_eq_length_filter]
            exact hm'.trans (hin.sublist.countP_le.trans (List.countP_mono_left fun c _ hc => rules.digit c hc))
          exact hshort (hlong.trans hcount)

end

theorem longNumberPat_render (T : CharTables) : (longNumberPat T).render = longNumberPattern := by
  simp only [longNumberPat, longNumberPattern, numberPat, numberPattern, digitPat, dotPat, Pat.cat, Pat.render,
    String.reduceAppend]

/-- Whatever the earlier passes leave of a text, a number of four or more digits in the scrubbed text follows a character
    of a word or a dot. -/
theorem scrubText_long_numbers (rules : DigitRules py T) (hreads : Reads py T (longNumberPat T, false))
    {text : String} {left m right : List Char} (hout : (scrubText py text).toList = left ++ m ++ right)
    (hm : IsNumber T m) (hlong : minLongDigits ≤ m.countP T.isDigit) :
    ∃ c ∈ left.getLast?, T.isWord c = true ∨ c = '.' := by
  obtain ⟨dated, hdated⟩ : ∃ dated, scrubText py text = py.sub longNumberPattern false (longNumber py) dated := ⟨_, rfl⟩
  have hpass : py.sub longNumberPattern false (longNumber py) dated =
      (longNumberPat T).sub T false (longNumber py) dated := by
    rw [← longNumberPat_render T]
    exact hreads (longNumber py) dated
  obtain ⟨pieces, hscan, hpieces⟩ :=
    @Pat.subFrom_scan T false (longNumberPat T) rfl (longNumber py) [] dated.toList
  rw [hdated, hpass, Pat.sub, String.toList_ofList, hpieces] at hout
  have hglue := scan_long_numbers rules hscan (fun _ _ _ => rfl) hout hm hlong
  rw [List.nil_append, Option.any_eq_true] at hglue
  obtain ⟨c, hc, hglued⟩ := hglue
  rw [glued, Bool.or_eq_true] at hglued
  exact ⟨c, hc, hglued.imp_right of_decide_eq_true⟩

/-! ### What survives -/

section Survivors

/-- The tables as far as ASCII goes. -/
def asciiTables : CharTables where
  isDigit := Char.isDigit
  isWord c := c.isAlphanum || c = '_'
  isSpace := PyText.isSpace
  same c d := c.toLower = d.toLower

/-- A Python that reads the scrubber's patterns as their expressions. -/
def scrubPy : PyText where
  nfkc := id
  casefold := String.map Char.toLower
  upper := String.map Char.toUpper
  lower := String.map Char.toLower
  isDigit := Char.isDigit
  search _ _ _ := false
  fullmatch _ _ := none
  sub pattern ignoreCase f text :=
    let i := (scrubPats asciiTables).findIdx fun p => p.1.render == pattern && p.2 == ignoreCase
    ((scrubPats asciiTables)[i]?.map fun p => p.1.sub asciiTables p.2 f text).getD text
  escape := id
  sha256 := id

theorem scrubPy_digits : DigitRules scrubPy asciiTables where
  word c hc := by
    have hdigit : c.isDigit = true := hc
    change (c.isAlphanum || decide (c = '_')) = true
    rw [Char.isAlphanum, hdigit, Bool.or_true, Bool.true_or]
  digit _ hc := hc
  ascii _ _ := rfl

theorem scrubPy_reads : Reads scrubPy asciiTables (longNumberPat asciiTables, false) := by
  intro f text
  have hlast : (scrubPats asciiTables).findIdx (fun p =>
      p.1.render == (longNumberPat asciiTables).render && p.2 == false) = 10 := by decide +kernel
  change ((scrubPats asciiTables)[(scrubPats asciiTables).findIdx fun p =>
    p.1.render == (longNumberPat asciiTables).render && p.2 == false]?.map fun p =>
      p.1.sub asciiTables p.2 f text).getD text = _
  rw [hlast]
  rfl

/-- A number that is glued to a letter survives beside one that does not. -/
theorem scrubText_long_numbers_glued : ∃ c ∈ "[NUM] A".toList.getLast?, asciiTables.isWord c = true ∨ c = '.' := by
  have hout : (scrubText scrubPy "54321 A12345").toList = "[NUM] A".toList ++ "12345".toList ++ [] := by decide +kernel
  have hall : (['2', '3', '4', '5'].all (grouped asciiTables)) = true := by decide
  have hnumber : IsNumber asciiTables "12345".toList :=
    ⟨'1', ['2', '3', '4', '5'], [], rfl, by decide, .inr ⟨List.all_eq_true.mp hall, ['2', '3', '4'], '5', rfl, by decide⟩,
      .inl rfl⟩
  exact scrubText_long_numbers scrubPy_digits scrubPy_reads hout hnumber (by decide)

/-- A number survives after a letter, after a leading dot, and where a year before its dot became a date. -/
theorem long_numbers_survive : scrubText scrubPy "A12345" = "A12345" ∧ scrubText scrubPy ".6789" = ".6789" ∧
    scrubText scrubPy "2024.34567" = "[DATE].34567" := by
  refine ⟨?_, ?_, ?_⟩ <;> decide +kernel

end Survivors

end Renderer
end AsymmetricCommittee
