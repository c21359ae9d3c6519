import Mathlib.Data.List.Forall2
import Mathlib.Data.List.Flatten

/-! Regular expressions with the texts that they are written as, the texts that they match, and what a scan of a text for
    matches leaves. Which match is taken at a place is left open; a reader of expressions takes the first that it finds. -/

/-- An expression. An atom keeps the text that it is written as. -/
inductive Rx where
  | lit (source text : String)
  | cls (source : String) (p : Char → Bool)
  | seq (r s : Rx)
  | alt (r s : Rx)
  | opt (r : Rx)
  | star (r : Rx)
  | plus (r : Rx)
  | group (r : Rx)
  /-- From here on letters are compared ignoring case, or not. -/
  | flag (ignoreCase : Bool) (r : Rx)

namespace Rx

/-- The text of the expression. -/
def render : Rx → String
  | lit source _ => source
  | cls source _ => source
  | seq r s => render r ++ render s
  | alt r s => render r ++ "|" ++ render s
  | opt r => render r ++ "?"
  | star r => render r ++ "*"
  | plus r => render r ++ "+"
  | group r => "(?:" ++ render r ++ ")"
  | flag ignoreCase r => "(?" ++ (if ignoreCase then "i" else "-i") ++ ":" ++ render r ++ ")"

/-- The expressions with a separator between each two. -/
def join (sep : Rx) : List Rx → Rx
  | [] => lit "" ""
  | [r] => r
  | r :: rs => seq r (seq sep (join sep rs))

/-- One of the expressions. -/
def any : List Rx → Rx
  | [] => lit "" ""
  | [r] => r
  | r :: rs => alt r (any rs)

theorem render_join (sep : Rx) (rs : List Rx) : (join sep rs).render = String.intercalate sep.render (rs.map render) := by
  induction rs with
  | nil => rfl
  | cons r rs ih =>
    cases rs with
    | nil => exact String.intercalate_singleton.symm
    | cons s rs =>
      rw [join, render, render, ih, List.map_cons, List.map_cons, List.map_cons, String.intercalate_cons_cons, String.append_assoc]
      exact nofun

theorem render_any (rs : List Rx) : (any rs).render = String.intercalate "|" (rs.map render) := by
  induction rs with
  | nil => rfl
  | cons r rs ih =>
    cases rs with
    | nil => exact String.intercalate_singleton.symm
    | cons s rs =>
      rw [any, render, ih, List.map_cons, List.map_cons, List.map_cons, String.intercalate_cons_cons]
      exact nofun

/-- Which texts an expression matches; `same` compares letters where their case is ignored. -/
def Matches (same : Char → Char → Prop) : Rx → Bool → List Char → Prop
  | lit _ text, ignoreCase, w => if ignoreCase then List.Forall₂ same w text.toList else w = text.toList
  | cls _ p, _, w => ∃ c, w = [c] ∧ p c = true
  | seq r s, ignoreCase, w => ∃ u v, w = u ++ v ∧ Matches same r ignoreCase u ∧ Matches same s ignoreCase v
  | alt r s, ignoreCase, w => Matches same r ignoreCase w ∨ Matches same s ignoreCase w
  | opt r, ignoreCase, w => w = [] ∨ Matches same r ignoreCase w
  | star r, ignoreCase, w => ∃ us : List (List Char), w = us.flatten ∧ ∀ u ∈ us, Matches same r ignoreCase u
  | plus r, ignoreCase, w => ∃ us : List (List Char), us ≠ [] ∧ w = us.flatten ∧ ∀ u ∈ us, Matches same r ignoreCase u
  | group r, ignoreCase, w => Matches same r ignoreCase w
  | flag ignoreCase r, _, w => Matches same r ignoreCase w

attribute [local simp] Matches

section
variable {same : Char → Char → Prop} {ic : Bool} {w : List Char}

theorem matches_any {rs : List Rx} (hrs : rs ≠ []) : Matches same (any rs) ic w ↔ ∃ r ∈ rs, Matches same r ic w := by
  induction rs with
  | nil => exact absurd rfl hrs
  | cons r rs ih =>
    cases rs with
    | nil => simp [any]
    | cons s rs =>
      rw [any, Matches, ih (List.cons_ne_nil s rs), List.exists_mem_cons_iff (a := r)]
      exact nofun

theorem matches_join_cons {sep r s : Rx} {rs : List Rx} : Matches same (join sep (r :: s :: rs)) ic w ↔
    ∃ u v x, w = u ++ v ++ x ∧ Matches same r ic u ∧ Matches same sep ic v ∧ Matches same (join sep (s :: rs)) ic x := by
  rw [join, Matches]
  · constructor
    · rintro ⟨u, y, rfl, hu, v, x, rfl, hv, hx⟩
      exact ⟨u, v, x, (List.append_assoc u v x).symm, hu, hv, hx⟩
    · rintro ⟨u, v, x, rfl, hu, hv, hx⟩
      exact ⟨u, v ++ x, List.append_assoc u v x, hu, v, x, rfl, hv, hx⟩
  · exact nofun

/-- One or more characters of a class. -/
theorem matches_plus_cls {source : String} {p : Char → Bool} :
    Matches same (plus (cls source p)) ic w ↔ w ≠ [] ∧ ∀ c ∈ w, p c = true := by
  constructor
  · rintro ⟨us, hne, rfl, hus⟩
    refine ⟨fun hnil => ?_, fun c hc => ?_⟩
    · obtain ⟨u, hu⟩ := List.exists_mem_of_ne_nil us hne
      obtain ⟨c, rfl, -⟩ := hus u hu
      exact List.cons_ne_nil _ _ (List.flatten_eq_nil_iff.mp hnil _ hu)
    · obtain ⟨u, hu, hcu⟩ := List.mem_flatten.mp hc
      obtain ⟨d, rfl, hd⟩ := hus u hu
      rwa [List.mem_singleton.mp hcu]
  · rintro ⟨hne, hw⟩
    refine ⟨w.map fun c => [c], ?_, ?_, fun u hu => ?_⟩
    · exact mt List.map_eq_nil_iff.mp hne
    · rw [← List.flatMap_def, List.flatMap_singleton']
    · obtain ⟨c, hc, rfl⟩ := List.mem_map.mp hu
      exact ⟨c, rfl, hw c hc⟩

/-- Any number of one character. -/
theorem matches_star_char {source : String} {a : Char} :
    Matches same (star (cls source fun c => decide (c = a))) ic w ↔ ∃ n, w = List.replicate n a := by
  constructor
  · rintro ⟨us, rfl, hus⟩
    refine ⟨us.flatten.length, List.eq_replicate_iff.mpr ⟨rfl, fun c hc => ?_⟩⟩
    obtain ⟨u, hu, hcu⟩ := List.mem_flatten.mp hc
    obtain ⟨d, rfl, hd⟩ := hus u hu
    rw [List.mem_singleton.mp hcu]
    exact of_decide_eq_true hd
  · rintro ⟨n, rfl⟩
    refine ⟨List.replicate n [a], ?_, fun u hu => ⟨a, List.eq_of_mem_replicate hu, decide_eq_true rfl⟩⟩
    rw [List.flatten_replicate_singleton]

end

/-! ### Reading an expression -/

section Ways
variable (same : Char → Char → Bool)

/-- Whether a word is a text, letter by letter. -/
def spells (ignoreCase : Bool) (w text : List Char) : Bool :=
  if ignoreCase then w.length == text.length && (w.zip text).all fun x => same x.1 x.2 else w == text

/-- A reading again and again, of at least one character each time. -/
def repeats (read : List Char → List (List Char × List Char)) : Nat → List Char → List (List Char × List Char)
  | 0, w => [([], w)]
  | n + 1, w => ((read w).filter fun x => !x.1.isEmpty).flatMap
      (fun x => (repeats read n x.2).map fun y => (x.1 ++ y.1, y.2)) ++ [([], w)]

/-- What an expression may read off the front of a text, each with what is left. -/
def ways : Rx → Bool → List Char → List (List Char × List Char)
  | lit _ text, ignoreCase, w =>
    if spells same ignoreCase (w.take text.toList.length) text.toList then
      [(w.take text.toList.length, w.drop text.toList.length)]
    else []
  | cls _ p, _, w =>
    match w with
    | [] => []
    | c :: rest => if p c then [([c], rest)] else []
  | seq r s, ignoreCase, w => (ways r ignoreCase w).flatMap fun x =>
      (ways s ignoreCase x.2).map fun y => (x.1 ++ y.1, y.2)
  | alt r s, ignoreCase, w => ways r ignoreCase w ++ ways s ignoreCase w
  | opt r, ignoreCase, w => ways r ignoreCase w ++ [([], w)]
  | star r, ignoreCase, w => repeats (ways r ignoreCase) w.length w
  | plus r, ignoreCase, w => (ways r ignoreCase w).flatMap fun x =>
      (repeats (ways r ignoreCase) x.2.length x.2).map fun y => (x.1 ++ y.1, y.2)
  | group r, ignoreCase, w => ways r ignoreCase w
  | flag ignoreCase r, _, w => ways r ignoreCase w

end Ways

section
variable {same : Char → Char → Bool} {ic : Bool} {u v w : List Char}

theorem spells_iff {text : List Char} : spells same ic w text = true ↔
    if ic then List.Forall₂ (fun c d => same c d = true) w text else w = text := by
  unfold spells
  cases ic with
  | false => simp
  | true =>
    rw [if_pos rfl, if_pos rfl, List.forall₂_iff_zip, Bool.and_eq_true, beq_iff_eq, List.all_eq_true]
    exact and_congr_right fun _ => ⟨fun h a b hab => h (a, b) hab, fun h x hx => h hx⟩

theorem mem_cat {first : List (List Char × List Char)} {second : List Char → List (List Char × List Char)} :
    (u, v) ∈ (first.flatMap fun x => (second x.2).map fun y => (x.1 ++ y.1, y.2)) ↔
      ∃ x rest y, (x, rest) ∈ first ∧ (y, v) ∈ second rest ∧ u = x ++ y := by
  simp only [List.mem_flatMap, List.mem_map, Prod.exists, Prod.mk.injEq]
  constructor
  · rintro ⟨x, rest, hx, y, after, hy, rfl, rfl⟩
    exact ⟨x, rest, y, hx, hy, rfl⟩
  · rintro ⟨x, rest, y, hx, hy, rfl⟩
    exact ⟨x, rest, hx, y, v, hy, rfl, rfl⟩

theorem mem_repeats {read : List Char → List (List Char × List Char)} {P : List Char → Prop}
    (hread : ∀ w u v, (u, v) ∈ read w ↔ w = u ++ v ∧ P u) {n : Nat} (hn : w.length ≤ n) :
    (u, v) ∈ repeats read n w ↔ w = u ++ v ∧ ∃ us : List (List Char), u = us.flatten ∧ ∀ x ∈ us, P x := by
  induction n generalizing w u with
  | zero =>
    rw [repeats, List.mem_singleton, Prod.mk.injEq]
    constructor
    · rintro ⟨rfl, rfl⟩
      exact ⟨rfl, [], rfl, fun x hx => absurd hx List.not_mem_nil⟩
    · rintro ⟨rfl, -⟩
      rw [Nat.le_zero, List.length_eq_zero_iff] at hn
      rw [hn]
      exact ⟨(List.append_eq_nil_iff.mp hn).1, (List.append_eq_nil_iff.mp hn).2⟩
  | succ n ih =>
    rw [repeats, List.mem_append, List.mem_flatMap, List.mem_singleton, Prod.mk.injEq]
    constructor
    · rintro (⟨⟨x, rest⟩, hx, h⟩ | ⟨rfl, rfl⟩)
      · obtain ⟨⟨y, after⟩, hy, heq⟩ := List.mem_map.mp h
        cases heq
        obtain ⟨hx, hne⟩ := List.mem_filter.mp hx
        obtain ⟨rfl, hP⟩ := (hread _ _ _).mp hx
        have hpos : 0 < x.length := List.length_pos_iff.mpr (by simpa using hne)
        have hle : rest.length ≤ n := by
          rw [List.length_append] at hn
          omega
        obtain ⟨rfl, us, rfl, hus⟩ := (ih hle).mp hy
        exact ⟨(List.append_assoc _ _ _).symm, x :: us, rfl, List.forall_mem_cons.mpr ⟨hP, hus⟩⟩
      · exact ⟨rfl, [], rfl, fun x hx => absurd hx List.not_mem_nil⟩
    · rintro ⟨rfl, us, rfl, hus⟩
      -- the empty readings are left out
      rw [← List.flatten_filter_not_isEmpty] at hn ⊢
      have hne : ∀ x ∈ us.filter fun x => !x.isEmpty, x ≠ [] ∧ P x := by
        intro x hx
        obtain ⟨hx, hempty⟩ := List.mem_filter.mp hx
        exact ⟨by simpa using hempty, hus x hx⟩
      generalize us.filter (fun x => !x.isEmpty) = us at hn hne
      cases us with
      | nil => exact .inr ⟨rfl, rfl⟩
      | cons x us =>
        obtain ⟨⟨hx, hP⟩, hne⟩ := List.forall_mem_cons.mp hne
        have hpos := List.length_pos_iff.mpr hx
        have hle : (us.flatten ++ v).length ≤ n := by
          rw [List.flatten_cons, List.append_assoc, List.length_append] at hn
          omega
        refine .inl ⟨(x, us.flatten ++ v), List.mem_filter.mpr ⟨?_, by simpa using hx⟩, List.mem_map.mpr ⟨(us.flatten, v), ?_, rfl⟩⟩
        · rw [List.flatten_cons, List.append_assoc]
          exact (hread _ _ _).mpr ⟨rfl, hP⟩
        · exact (ih hle).mpr ⟨rfl, us, rfl, fun x hx => (hne x hx).2⟩

/-- An expression reads what it matches. -/
theorem mem_ways {r : Rx} : (u, v) ∈ ways same r ic w ↔ w = u ++ v ∧ Matches (fun c d => same c d = true) r ic u := by
  induction r generalizing ic u v w with
  | lit source text =>
    rw [ways, Matches, ← spells_iff]
    constructor
    · intro h
      split at h
      · next hspells =>
        cases List.mem_singleton.mp h
        exact ⟨(List.take_append_drop _ _).symm, hspells⟩
      · cases h
    · rintro ⟨rfl, hspells⟩
      have hlength : u.length = text.toList.length := by
        have hmatch := spells_iff.mp hspells
        split at hmatch
        · exact List.Forall₂.length_eq hmatch
        · rw [hmatch]
      rw [← hlength, List.take_left', List.drop_left', if_pos hspells]
      · exact List.mem_singleton_self _
      · rfl
      · rfl
  | cls source p =>
    cases w with
    | nil =>
      simp only [ways, Matches, List.not_mem_nil, false_iff]
      rintro ⟨h, c, rfl, -⟩
      exact List.cons_ne_nil _ _ h.symm
    | cons d rest =>
      simp only [ways, Matches]
      constructor
      · intro h
        split at h
        · next hp =>
          cases List.mem_singleton.mp h
          exact ⟨rfl, d, rfl, hp⟩
        · cases h
      · rintro ⟨h, c, rfl, hp⟩
        obtain ⟨rfl, rfl⟩ := List.cons.inj h
        rw [if_pos hp]
        exact List.mem_singleton_self _
  | seq r s ihr ihs =>
    rw [ways, Matches, mem_cat]
    constructor
    · rintro ⟨x, rest, y, hx, hy, rfl⟩
      obtain ⟨rfl, hr⟩ := ihr.mp hx
      obtain ⟨rfl, hs⟩ := ihs.mp hy
      exact ⟨(List.append_assoc _ _ _).symm, x, y, rfl, hr, hs⟩
    · rintro ⟨rfl, x, y, rfl, hr, hs⟩
      exact ⟨x, y ++ v, y, ihr.mpr ⟨List.append_assoc _ _ _, hr⟩, ihs.mpr ⟨rfl, hs⟩, rfl⟩
  | alt r s ihr ihs =>
    rw [ways, Matches, List.mem_append, ihr, ihs, and_or_left]
  | opt r ih =>
    rw [ways, Matches, List.mem_append, ih, List.mem_singleton, Prod.mk.injEq]
    constructor
    · rintro (⟨rfl, hr⟩ | ⟨rfl, rfl⟩)
      · exact ⟨rfl, .inr hr⟩
      · exact ⟨rfl, .inl rfl⟩
    · rintro ⟨rfl, rfl | hr⟩
      · exact .inr ⟨rfl, rfl⟩
      · exact .inl ⟨rfl, hr⟩
  | star r ih => exact mem_repeats (fun w u v => ih) (Nat.le_refl _)
  | plus r ih =>
    rw [ways, Matches, @mem_cat u v (ways same r ic w) fun rest => repeats (ways same r ic) rest.length rest]
    have hrest : ∀ {y rest : List Char}, (y, v) ∈ repeats (ways same r ic) rest.length rest ↔
        rest = y ++ v ∧ ∃ us : List (List Char), y = us.flatten ∧ ∀ x ∈ us, Matches (fun c d => same c d = true) r ic x :=
      mem_repeats (fun w u v => ih) (Nat.le_refl _)
    constructor
    · rintro ⟨x, rest, y, hx, hy, rfl⟩
      obtain ⟨rfl, hr⟩ := ih.mp hx
      obtain ⟨rfl, us, rfl, hus⟩ := hrest.mp hy
      exact ⟨(List.append_assoc _ _ _).symm, x :: us, List.cons_ne_nil _ _, rfl, List.forall_mem_cons.mpr ⟨hr, hus⟩⟩
    · rintro ⟨rfl, us, hne, rfl, hus⟩
      obtain ⟨x, us, rfl⟩ := List.exists_cons_of_ne_nil hne
      obtain ⟨hr, hus⟩ := List.forall_mem_cons.mp hus
      exact ⟨x, us.flatten ++ v, us.flatten, ih.mpr ⟨by rw [List.flatten_cons, List.append_assoc], hr⟩,
        hrest.mpr ⟨rfl, us, rfl, hus⟩, List.flatten_cons⟩
  | group r ih => exact ih
  | flag ignoreCase r ih => exact ih

end

/-! ### Scanning a text -/

/-- A part of a scanned text. -/
inductive Piece where
  | kept (c : Char)
  | hit (m : List Char)

namespace Piece

def text : Piece → List Char
  | kept c => [c]
  | hit m => m

/-- What the part becomes when matches are replaced. -/
def out (f : List Char → List Char) : Piece → List Char
  | kept c => [c]
  | hit m => f m

end Piece

/-- From left to right: a character is kept only where no match with a character begins. `at` says what is matched between
    what comes before and after. -/
inductive Scan (At : List Char → List Char → List Char → Prop) : List Char → List Char → List Piece → Prop where
  | done (before : List Char) : Scan At before [] []
  | keep {before rest : List Char} {c : Char} {pieces : List Piece}
      (hno : ∀ m after, m ≠ [] → c :: rest = m ++ after → ¬At before m after)
      (hrest : Scan At (before ++ [c]) rest pieces) : Scan At before (c :: rest) (.kept c :: pieces)
  | hit {before m after : List Char} {pieces : List Piece} (hm : At before m after)
      (hrest : Scan At (before ++ m) after pieces) : Scan At before (m ++ after) (.hit m :: pieces)

section
variable {At : List Char → List Char → List Char → Prop} {before rest : List Char} {pieces : List Piece}

theorem Scan.text_eq (h : Scan At before rest pieces) : pieces.flatMap Piece.text = rest := by
  induction h with
  | done before => rfl
  | keep hno hrest ih => rw [List.flatMap_cons, ih]; rfl
  | hit hm hrest ih => rw [List.flatMap_cons, ih]; rfl

/-- Every hit is a match between the texts of the other pieces. -/
theorem Scan.at_hit (h : Scan At before rest pieces) {left right : List Piece} {m : List Char}
    (hpieces : pieces = left ++ .hit m :: right) :
    At (before ++ left.flatMap Piece.text) m (right.flatMap Piece.text) := by
  induction h generalizing left with
  | done before => exact absurd hpieces.symm (List.append_ne_nil_of_right_ne_nil _ (List.cons_ne_nil _ _))
  | @keep before rest c pieces hno hrest ih =>
    cases left with
    | nil => cases hpieces
    | cons p left =>
      obtain ⟨rfl, htail⟩ := List.cons.inj hpieces
      have hat := ih htail
      rwa [List.append_assoc] at hat
  | @hit before m' after pieces hm hrest ih =>
    cases left with
    | nil =>
      cases hpieces
      rw [List.flatMap_nil, List.append_nil, hrest.text_eq]
      exact hm
    | cons p left =>
      obtain ⟨rfl, htail⟩ := List.cons.inj hpieces
      have hat := ih htail
      rwa [List.append_assoc] at hat

/-- Where a match begins, nothing is kept. -/
theorem Scan.not_kept (h : Scan At before rest pieces) {left right : List Piece} {c : Char}
    (hpieces : pieces = left ++ .kept c :: right) {m after : List Char} (hm : m ≠ [])
    (htext : c :: right.flatMap Piece.text = m ++ after) : ¬At (before ++ left.flatMap Piece.text) m after := by
  induction h generalizing left with
  | done before => exact absurd hpieces.symm (List.append_ne_nil_of_right_ne_nil _ (List.cons_ne_nil _ _))
  | @keep before rest c' pieces hno hrest ih =>
    cases left with
    | nil =>
      cases hpieces
      rw [List.flatMap_nil, List.append_nil]
      rw [hrest.text_eq] at htext
      exact hno m after hm htext
    | cons p left =>
      obtain ⟨rfl, htail⟩ := List.cons.inj hpieces
      have hat := ih htail
      rwa [List.append_assoc] at hat
  | @hit before m' after' pieces hm' hrest ih =>
    cases left with
    | nil => cases hpieces
    | cons p left =>
      obtain ⟨rfl, htail⟩ := List.cons.inj hpieces
      have hat := ih htail
      rwa [List.append_assoc] at hat

/-- The parts of a text where a function of what was read and what is left finds the matches. The number is how many
    characters of the last match are still to pass. -/
def piecesFrom (next : List Char → List Char → Option (List Char × List Char)) :
    Nat → List Char → List Char → List Piece
  | _, _, [] => []
  | skip + 1, before, c :: rest => piecesFrom next skip (before ++ [c]) rest
  | 0, before, c :: rest =>
    match next before (c :: rest) with
    | some (m, _) => .hit m :: piecesFrom next (m.length - 1) (before ++ [c]) rest
    | none => .kept c :: piecesFrom next 0 (before ++ [c]) rest

theorem piecesFrom_skip (next : List Char → List Char → Option (List Char × List Char)) (before w after : List Char) :
    piecesFrom next w.length before (w ++ after) = piecesFrom next 0 (before ++ w) after := by
  induction w generalizing before with
  | nil => rw [List.append_nil]; rfl
  | cons c w ih =>
    rw [List.length_cons, List.cons_append, piecesFrom, ih, List.append_assoc, List.singleton_append]

/-- A function that finds a match wherever there is one scans the text. -/
theorem scan_piecesFrom {next : List Char → List Char → Option (List Char × List Char)}
    (hsome : ∀ before rest m after, next before rest = some (m, after) → m ≠ [] ∧ rest = m ++ after ∧ At before m after)
    (hnone : ∀ before rest, next before rest = none → ∀ m after, m ≠ [] → rest = m ++ after → ¬At before m after)
    (before rest : List Char) : Scan At before rest (piecesFrom next 0 before rest) := by
  induction hn : rest.length using Nat.strongRecOn generalizing before rest with
  | _ n ih =>
    cases rest with
    | nil => exact .done before
    | cons c rest =>
      rw [piecesFrom]
      split
      · next m after hnext =>
        obtain ⟨hm, heq, hat⟩ := hsome _ _ _ _ hnext
        obtain ⟨d, w, rfl⟩ := List.exists_cons_of_ne_nil hm
        rw [List.cons_append, List.cons.injEq] at heq
        obtain ⟨rfl, rfl⟩ := heq
        rw [List.length_cons, Nat.add_sub_cancel, piecesFrom_skip, List.append_assoc, List.singleton_append]
        have hlt : after.length < n := by
          rw [← hn, List.length_cons, List.length_append]
          omega
        exact .hit hat (ih _ hlt _ _ rfl)
      · next hnext =>
        exact .keep (hnone _ _ hnext) (ih _ (hn ▸ Nat.lt_succ_self _) _ _ rfl)

end
end Rx
