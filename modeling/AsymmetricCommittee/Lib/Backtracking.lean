import AsymmetricCommittee.Lib.Regex
import AsymmetricCommittee.Lib.PyText

/-! Expressions as a backtracking matcher reads them: the places that an expression may end at, in the order in which they
    are tried, and what the replacement of every match leaves of a text. -/

/-- The tables of characters that a matcher asks. -/
structure CharTables where
  /-- `\d`. -/
  isDigit : Char → Bool
  /-- `\w`. -/
  isWord : Char → Bool
  /-- `\s`. -/
  isSpace : Char → Bool
  /-- One letter, where case is ignored. -/
  same : Char → Char → Bool

/-- An expression. A class of characters keeps the text that it is written as. -/
inductive Pat where
  | lit (text : String)
  | cls (source : String) (p : Char → Bool)
  /-- As many characters of a class as there are, within bounds; then fewer. -/
  | many (source : String) (p : Char → Bool) (lo : Nat) (hi : Option Nat)
  | seq (r s : Pat)
  | alt (r s : Pat)
  | opt (r : Pat)
  | group (r : Pat)
  | capture (r : Pat)
  /-- `\b`. -/
  | edge
  | notBehind (source : String) (p : Char → Bool)
  | notAhead (source : String) (p : Char → Bool)

/-- Where a match stands: what was read, what is left, and what the group captured. -/
structure Place where
  before : List Char
  rest : List Char
  group : Option (List Char)

namespace Pat

/-- The text of the expression. -/
def render : Pat → String
  | lit text => text
  | cls source _ => source
  | many source _ _ _ => source
  | seq r s => render r ++ render s
  | alt r s => render r ++ "|" ++ render s
  | opt r => render r ++ "?"
  | group r => "(?:" ++ render r ++ ")"
  | capture r => "(" ++ render r ++ ")"
  | edge => r"\b"
  | notBehind source _ => "(?<!" ++ source ++ ")"
  | notAhead source _ => "(?!" ++ source ++ ")"

/-- Whether the expression has a group that captures. -/
def captures : Pat → Bool
  | seq r s => captures r || captures s
  | alt r s => captures r || captures s
  | opt r => captures r
  | group r => captures r
  | capture _ => true
  | _ => false

/-- One expression after the other. -/
def cat : List Pat → Pat
  | [] => lit ""
  | [r] => r
  | r :: rs => seq r (cat rs)

/-- The first of the expressions that leads to a match. -/
def oneOf : List Pat → Pat
  | [] => lit ""
  | [r] => r
  | r :: rs => alt r (oneOf rs)

/-- The ways to read characters of a class, the longest first. -/
def splits (p : Char → Bool) : List Char → List (List Char × List Char)
  | [] => [([], [])]
  | c :: rest => (if p c then (splits p rest).map fun s => (c :: s.1, s.2) else []) ++ [([], c :: rest)]

/-- Whether so many characters are within the bounds. -/
def within (lo : Nat) (hi : Option Nat) (n : Nat) : Bool := decide (lo ≤ n) && hi.all fun hi => decide (n ≤ hi)

section
variable (T : CharTables) (ignoreCase : Bool)

/-- Whether a word spells a text. -/
def spells (text w : List Char) : Bool :=
  w.length == text.length && (w.zip text).all fun cs => if ignoreCase then T.same cs.1 cs.2 else cs.1 == cs.2

/-- The places that the expression may end at, in the order in which they are tried. -/
def ways : Pat → Place → List Place
  | lit text, e =>
    if spells T ignoreCase text.toList (e.rest.take text.length) then
      [⟨e.before ++ e.rest.take text.length, e.rest.drop text.length, e.group⟩]
    else []
  | cls _ p, e =>
    match e.rest with
    | [] => []
    | c :: rest => if p c then [⟨e.before ++ [c], rest, e.group⟩] else []
  | many _ p lo hi, e => ((splits p e.rest).filter fun s => within lo hi s.1.length).map fun s =>
      ⟨e.before ++ s.1, s.2, e.group⟩
  | seq r s, e => (ways r e).flatMap fun e => ways s e
  | alt r s, e => ways r e ++ ways s e
  | opt r, e => ways r e ++ [e]
  | group r, e => ways r e
  | capture r, e => (ways r e).map fun e' => { e' with group := some (e'.before.drop e.before.length) }
  | edge, e => if e.before.getLast?.any T.isWord == e.rest.head?.any T.isWord then [] else [e]
  | notBehind _ p, e => if e.before.getLast?.any p then [] else [e]
  | notAhead _ p, e => if e.rest.head?.any p then [] else [e]

/-- The match between what comes before and the rest: the first way. -/
def first (r : Pat) (before rest : List Char) : Option Place := (ways T ignoreCase r ⟨before, rest, none⟩).head?

/-- The match as it is handed to a function of it. -/
def matchOf (r : Pat) (before : List Char) (e : Place) : RegexMatch :=
  ⟨String.ofList (e.before.drop before.length), if r.captures then [e.group.map String.ofList] else []⟩

/-- From left to right, every match of at least one character is replaced. The number is how many characters of the last
    match are still to pass. -/
def subFrom (r : Pat) (f : RegexMatch → String) : Nat → List Char → List Char → List Char
  | _, _, [] => []
  | skip + 1, before, c :: rest => subFrom r f skip (before ++ [c]) rest
  | 0, before, c :: rest =>
    match (first T ignoreCase r before (c :: rest)).filter fun e => decide (e.rest.length ≤ rest.length) with
    | some e => (f (matchOf r before e)).toList ++ subFrom r f (rest.length - e.rest.length) (before ++ [c]) rest
    | none => c :: subFrom r f 0 (before ++ [c]) rest

/-- `re.sub` of an expression that matches no empty text. -/
def sub (r : Pat) (f : RegexMatch → String) (text : String) : String :=
  String.ofList (subFrom T ignoreCase r f 0 [] text.toList)

end

/-! ### Ways -/

attribute [local simp] splits ways subFrom

theorem mem_splits {p : Char → Bool} {rest : List Char} {s : List Char × List Char} :
    s ∈ splits p rest ↔ rest = s.1 ++ s.2 ∧ ∀ c ∈ s.1, p c = true := by
  obtain ⟨w, after⟩ := s
  induction rest generalizing w after with
  | nil =>
    simp only [splits, List.mem_singleton, Prod.mk.injEq]
    constructor
    · rintro ⟨rfl, rfl⟩
      exact ⟨rfl, fun c hc => absurd hc List.not_mem_nil⟩
    · intro h
      exact List.append_eq_nil_iff.mp h.1.symm
  | cons c rest ih =>
    rw [splits, List.mem_append, List.mem_singleton]
    constructor
    · rintro (h | h)
      · by_cases hp : p c = true
        · rw [if_pos hp, List.mem_map] at h
          obtain ⟨⟨v, a⟩, hv, heq⟩ := h
          cases heq
          obtain ⟨rfl, hall⟩ := (ih v a).mp hv
          exact ⟨rfl, List.forall_mem_cons.mpr ⟨hp, hall⟩⟩
        · rw [if_neg hp] at h
          cases h
      · cases h
        exact ⟨rfl, fun c hc => absurd hc List.not_mem_nil⟩
    · rintro ⟨heq, hall⟩
      cases w with
      | nil => exact .inr (by rw [heq]; rfl)
      | cons d w =>
        obtain ⟨rfl, rfl⟩ := List.cons.inj heq
        obtain ⟨hp, hall⟩ := List.forall_mem_cons.mp hall
        rw [if_pos hp]
        exact .inl (List.mem_map.mpr ⟨(w, after), (ih w after).mpr ⟨rfl, hall⟩, rfl⟩)

theorem splits_longest_first (p : Char → Bool) (rest : List Char) :
    (splits p rest).Pairwise fun s s' => s'.1.length < s.1.length := by
  induction rest with
  | nil => exact List.pairwise_singleton _ _
  | cons c rest ih =>
    rw [splits, List.pairwise_append]
    refine ⟨?_, List.pairwise_singleton _ _, fun s hs s' hs' => ?_⟩
    · split
      · exact List.pairwise_map.mpr (ih.imp fun h => Nat.succ_lt_succ h)
      · exact List.Pairwise.nil
    · rw [List.mem_singleton.mp hs']
      split at hs
      · obtain ⟨s, -, rfl⟩ := List.mem_map.mp hs
        exact Nat.succ_pos _
      · cases hs

section
variable {T : CharTables} {ic : Bool}

/-- Of the parts that are read within the bounds and lead on, the first way reads the longest. -/
theorem findSome_splits {β : Type} {p : Char → Bool} {q : List Char × List Char → Bool} {rest : List Char}
    {g : List Char × List Char → Option β} {b : β} (h : ((splits p rest).filter q).findSome? g = some b) :
    ∃ w after, rest = w ++ after ∧ (∀ c ∈ w, p c = true) ∧ q (w, after) = true ∧ g (w, after) = some b ∧
      ∀ v later, rest = v ++ later → (∀ c ∈ v, p c = true) → q (v, later) = true → w.length < v.length →
        g (v, later) = none := by
  obtain ⟨left, ⟨w, after⟩, right, hlist, hg, hleft⟩ := List.findSome?_eq_some_iff.mp h
  have hmem : (w, after) ∈ (splits p rest).filter q := hlist ▸ List.mem_append_right _ List.mem_cons_self
  obtain ⟨hsplit, hq⟩ := List.mem_filter.mp hmem
  obtain ⟨hrest, hall⟩ := mem_splits.mp hsplit
  refine ⟨w, after, hrest, hall, hq, hg, fun v later hv hp hq' hlt => hleft _ ?_⟩
  have hv' : (v, later) ∈ left ++ (w, after) :: right :=
    hlist ▸ List.mem_filter.mpr ⟨mem_splits.mpr ⟨hv, hp⟩, hq'⟩
  have hsorted := (splits_longest_first p rest).filter q
  rw [hlist] at hsorted
  -- what comes after the first is shorter than it
  rcases List.mem_append.mp hv' with hin | hin
  · exact hin
  · rcases List.mem_cons.mp hin with heq | hin
    · cases heq
      exact absurd hlt (Nat.lt_irrefl _)
    · have hshorter := List.rel_of_pairwise_cons (List.pairwise_append.mp hsorted).2.1 hin
      exact absurd hlt (Nat.lt_asymm hshorter)

/-- Whether a part of the text is of the class and within the bounds. -/
def Reading (p : Char → Bool) (lo : Nat) (hi : Option Nat) (rest w after : List Char) : Prop :=
  rest = w ++ after ∧ (∀ c ∈ w, p c = true) ∧ within lo hi w.length = true

theorem mem_filter_splits {p : Char → Bool} {lo : Nat} {hi : Option Nat} {rest w after : List Char} :
    (w, after) ∈ (splits p rest).filter (fun s => within lo hi s.1.length) ↔ Reading p lo hi rest w after := by
  rw [List.mem_filter, mem_splits, Reading, and_assoc]

theorem ways_many_seq (source : String) (p : Char → Bool) (lo : Nat) (hi : Option Nat) (s : Pat) (e : Place) :
    (ways T ic (seq (many source p lo hi) s) e).head? =
      ((splits p e.rest).filter fun s => within lo hi s.1.length).findSome? fun w =>
        (ways T ic s ⟨e.before ++ w.1, w.2, e.group⟩).head? := by
  rw [ways, ways, List.head?_flatMap, List.findSome?_map]
  rfl

/-- A class of characters, and an expression after them: the first way reads as many characters as let the expression
    follow. -/
theorem head_many_seq {source : String} {p : Char → Bool} {lo : Nat} {hi : Option Nat} {s : Pat} {e e' : Place}
    (h : (ways T ic (seq (many source p lo hi) s) e).head? = some e') :
    ∃ w after, Reading p lo hi e.rest w after ∧ (ways T ic s ⟨e.before ++ w, after, e.group⟩).head? = some e' ∧
      ∀ v later, Reading p lo hi e.rest v later → w.length < v.length →
        ways T ic s ⟨e.before ++ v, later, e.group⟩ = [] := by
  rw [ways_many_seq] at h
  obtain ⟨w, after, hrest, hall, hq, hg, hlonger⟩ := findSome_splits h
  refine ⟨w, after, ⟨hrest, hall, hq⟩, hg, fun v later hv hlt => ?_⟩
  exact List.head?_eq_none_iff.mp (hlonger v later hv.1 hv.2.1 hv.2.2 hlt)

theorem head_many_seq_none {source : String} {p : Char → Bool} {lo : Nat} {hi : Option Nat} {s : Pat} {e : Place}
    (h : (ways T ic (seq (many source p lo hi) s) e).head? = none) {v later : List Char}
    (hv : Reading p lo hi e.rest v later) : ways T ic s ⟨e.before ++ v, later, e.group⟩ = [] := by
  rw [ways_many_seq] at h
  exact List.head?_eq_none_iff.mp (List.findSome?_eq_none_iff.mp h _ (mem_filter_splits.mpr hv))

theorem head_map_eq_findSome {α β : Type} (f : α → β) (l : List α) : (l.map f).head? = l.findSome? fun x => some (f x) := by
  cases l <;> rfl

/-- A class of characters: the first way reads as many as there are. -/
theorem head_many {source : String} {p : Char → Bool} {lo : Nat} {hi : Option Nat} {e e' : Place}
    (h : (ways T ic (many source p lo hi) e).head? = some e') :
    ∃ w after, Reading p lo hi e.rest w after ∧ e' = ⟨e.before ++ w, after, e.group⟩ ∧
      ∀ v later, Reading p lo hi e.rest v later → v.length ≤ w.length := by
  rw [ways, head_map_eq_findSome] at h
  obtain ⟨w, after, hrest, hall, hq, hg, hlonger⟩ := findSome_splits h
  refine ⟨w, after, ⟨hrest, hall, hq⟩, (Option.some.inj hg).symm, fun v later hv => ?_⟩
  by_contra hlt
  cases hlonger v later hv.1 hv.2.1 hv.2.2 (Nat.lt_of_not_le hlt)

theorem head_many_none {source : String} {p : Char → Bool} {lo : Nat} {hi : Option Nat} {e : Place}
    (h : (ways T ic (many source p lo hi) e).head? = none) {v later : List Char} : ¬Reading p lo hi e.rest v later := by
  intro hv
  rw [ways, List.head?_eq_none_iff, List.map_eq_nil_iff] at h
  have hmem := mem_filter_splits.mpr hv
  rw [h] at hmem
  cases hmem

/-- An expression that may be left out is left out last. -/
theorem head_opt (r : Pat) (e : Place) : (ways T ic (opt r) e).head? = (ways T ic r e).head?.or (some e) := by
  rw [ways, List.head?_append, List.head?_cons]

/-- One expression after the other: the first way of the one, and from there the first way of the other. -/
theorem head_seq {r s : Pat} {e e' e'' : Place} (hr : (ways T ic r e).head? = some e')
    (hs : (ways T ic s e').head? = some e'') : (ways T ic (seq r s) e).head? = some e'' := by
  obtain ⟨tail, htail⟩ := List.head?_eq_some_iff.mp hr
  rw [ways, htail, List.flatMap_cons, List.head?_append, hs, Option.some_or]

/-- Every way reads a part of what is left. -/
theorem ways_split {r : Pat} {e e' : Place} (h : e' ∈ ways T ic r e) :
    ∃ w, e.rest = w ++ e'.rest ∧ e'.before = e.before ++ w := by
  have hnone : ∀ {e : Place}, ∃ w, e.rest = w ++ e.rest ∧ e.before = e.before ++ w := fun {e} =>
    ⟨[], rfl, (List.append_nil _).symm⟩
  induction r generalizing e e' with
  | lit text =>
    rw [ways] at h
    split at h
    · rw [List.mem_singleton.mp h]
      exact ⟨_, (List.take_append_drop _ _).symm, rfl⟩
    · cases h
  | cls source p =>
    rw [ways] at h
    split at h
    · cases h
    · next c rest hrest =>
      split at h
      · rw [List.mem_singleton.mp h]
        exact ⟨[c], hrest, rfl⟩
      · cases h
  | many source p lo hi =>
    rw [ways, List.mem_map] at h
    obtain ⟨s, hs, rfl⟩ := h
    exact ⟨s.1, (mem_splits.mp (List.mem_of_mem_filter hs)).1, rfl⟩
  | seq r s ihr ihs =>
    rw [ways, List.mem_flatMap] at h
    obtain ⟨mid, hmid, hend⟩ := h
    obtain ⟨u, hu, hu'⟩ := ihr hmid
    obtain ⟨v, hv, hv'⟩ := ihs hend
    exact ⟨u ++ v, by rw [hu, hv, List.append_assoc], by rw [hv', hu', List.append_assoc]⟩
  | alt r s ihr ihs =>
    rw [ways] at h
    exact (List.mem_append.mp h).elim ihr ihs
  | opt r ih =>
    rw [ways] at h
    rcases List.mem_append.mp h with h | h
    · exact ih h
    · rw [List.mem_singleton.mp h]
      exact hnone
  | group r ih => exact ih h
  | capture r ih =>
    rw [ways, List.mem_map] at h
    obtain ⟨mid, hmid, rfl⟩ := h
    obtain ⟨w, hw, hw'⟩ := ih hmid
    exact ⟨w, hw, hw'⟩
  | edge | notBehind source p | notAhead source p =>
    rw [ways] at h
    split at h
    · cases h
    · rw [List.mem_singleton.mp h]
      exact hnone

theorem first_split {r : Pat} {before rest : List Char} {e : Place} (h : first T ic r before rest = some e) :
    ∃ w, rest = w ++ e.rest ∧ e.before = before ++ w := ways_split (List.mem_of_mem_head? h)

/-! ### Replacing -/

/-- What the expression matches between two texts. -/
def At (T : CharTables) (ic : Bool) (r : Pat) (before m after : List Char) : Prop :=
  m ≠ [] ∧ ∃ e, first T ic r before (m ++ after) = some e ∧ e.rest = after

theorem subFrom_skip (r : Pat) (f : RegexMatch → String) (before w after : List Char) :
    subFrom T ic r f w.length before (w ++ after) = subFrom T ic r f 0 (before ++ w) after := by
  induction w generalizing before with
  | nil => rw [List.append_nil]; rfl
  | cons c w ih =>
    rw [List.length_cons, List.cons_append, subFrom, ih, List.append_assoc, List.singleton_append]

/-- The replacement scans the text for the matches. -/
theorem subFrom_scan {r : Pat} (hr : r.captures = false) (f : RegexMatch → String) (before rest : List Char) :
    ∃ pieces, Rx.Scan (At T ic r) before rest pieces ∧
      subFrom T ic r f 0 before rest = pieces.flatMap (Rx.Piece.out fun m => (f ⟨String.ofList m, []⟩).toList) := by
  induction hn : rest.length using Nat.strongRecOn generalizing before rest with
  | _ n ih =>
    cases rest with
    | nil => exact ⟨[], .done before, rfl⟩
    | cons c rest =>
      rw [subFrom]
      rcases hfirst : (first T ic r before (c :: rest)).filter fun e => decide (e.rest.length ≤ rest.length) with - | e
      · obtain ⟨pieces, hscan, hout⟩ := ih rest.length (hn ▸ Nat.lt_succ_self _) (before ++ [c]) rest rfl
        refine ⟨.kept c :: pieces, .keep (fun m after hm heq hat => ?_) hscan, by rw [hfirst, hout]; rfl⟩
        obtain ⟨-, e, he, rfl⟩ := hat
        rw [← heq] at he
        rw [he, Option.filter_some, if_pos] at hfirst
        · cases hfirst
        · have hlen := congrArg List.length heq
          have hpos := List.length_pos_iff.mpr hm
          rw [List.length_append, List.length_cons] at hlen
          exact decide_eq_true (by omega)
      · rw [hfirst]
        obtain ⟨hfirst, hle⟩ := Option.filter_eq_some_iff.mp hfirst
        have hle := of_decide_eq_true hle
        obtain ⟨m, hrest, hbefore⟩ := first_split hfirst
        have hlt : e.rest.length < n := by
          rw [← hn]
          exact Nat.lt_succ_of_le hle
        obtain ⟨pieces, hscan, hout⟩ := ih _ hlt (before ++ m) e.rest rfl
        cases m with
        | nil =>
          rw [← hrest.trans (List.nil_append _), List.length_cons] at hle
          exact absurd hle (Nat.not_succ_le_self _)
        | cons d w =>
          obtain ⟨rfl, rfl⟩ := List.cons.inj hrest
          refine ⟨.hit (c :: w) :: pieces, .hit ⟨List.cons_ne_nil c w, e, hfirst, rfl⟩ hscan, ?_⟩
          have hskip : (w ++ e.rest).length - e.rest.length = w.length := by
            rw [List.length_append, Nat.add_sub_cancel]
          have hmatch : matchOf r before e = ⟨String.ofList (c :: w), []⟩ := by
            rw [matchOf, hr, hbefore, List.drop_left]
            rfl
          change (f (matchOf r before e)).toList ++ subFrom T ic r f ((w ++ e.rest).length - e.rest.length) (before ++ [c])
            (w ++ e.rest) = _
          rw [hskip, subFrom_skip, hmatch, List.flatMap_cons, List.append_assoc, List.singleton_append, hout]
          rfl

end
end Pat
