import AsymmetricCommittee.Agents.Partitioner
import AsymmetricCommittee.Lib.Regex

/-! The masker's patterns as expressions, and what its module relies on in `re` and in the tables of Unicode. -/

namespace AsymmetricCommittee
namespace Partitioner
open PyText (isSpace)

variable (py : PyText)

/-- `_words`. -/
def wordsRx (text : String) : Rx :=
  Rx.join (.plus (.cls r"\s" isSpace)) ((text.toList.splitOn ' ').map fun word =>
    .lit (py.escape (String.ofList word)) (String.ofList word))

/-- The expressions of `_fragments`. -/
def fragmentRxs (a : Alias) : List Rx :=
  let canon := canon py a.text.val
  match a.kind with
  | .name | .brand | .person =>
    let forms := if py.casefold canon = canon then [canon] else [canon, py.casefold canon]
    [.flag true (Rx.any (forms.map (wordsRx py)))]
  | .ticker =>
    let parts := (canon.toList.splitOnP tickerSep).map String.ofList
    let body := Rx.join (.cls r"[.\-/]" tickerSep) (parts.map fun part => .lit (py.escape part) part)
    let short := decide ((py.sub r"\W" false (fun _ => "") canon).length ≤ shortTicker)
    [.seq (.opt (.cls r"\$" fun c => decide (c = '$'))) (.flag (!short) body)]
  | .cik =>
    let digits := toString (PyText.decimal canon)
    let mark := Rx.cls r"[\s:#=\-]" fun c => isSpace c || c = ':' || c = '#' || c = '=' || c = '-'
    let number := Rx.seq (.lit "no" "no") (.opt (.cls r"\." fun c => decide (c = '.')))
    let label := Rx.seq (.lit "cik" "cik") (.star (.group (.alt mark number)))
    [.seq (.flag true label) (.seq (.star (.cls "0" fun c => decide (c = '0'))) (.lit digits digits)),
      .lit (py.escape (PyText.zfill 10 digits)) (PyText.zfill 10 digits)]

/-- The expressions are written as the fragments. -/
theorem fragments_render (a : Alias) : (fragments py a).1 = (fragmentRxs py a).map Rx.render := by
  unfold fragments fragmentRxs
  have hwords : Rx.render ∘ wordsRx py = wordsPattern py := by
    funext text
    rw [Function.comp_apply, wordsRx, Rx.render_join, List.map_map, wordsPattern]
    rfl
  cases a.kind with
  | name | brand | person =>
    dsimp only
    rw [List.map_singleton, Rx.render, Rx.render_any, List.map_map, hwords]
    rfl
  | ticker =>
    dsimp only
    generalize decide ((py.sub r"\W" false (fun _ => "") (canon py a.text.val)).length ≤ shortTicker) = short
    have hdollar : (r"\$?(?" : String) = r"\$" ++ "?" ++ "(?" := by decide
    have hparts (parts : List String) : (parts.map fun part => Rx.lit (py.escape part) part).map Rx.render =
        parts.map py.escape := by
      rw [List.map_map]
      exact List.map_congr_left fun part _ => rfl
    rw [List.map_singleton, Rx.render, Rx.render, Rx.render, Rx.render, Rx.render_join, hparts, Rx.render, hdollar]
    cases short <;> simp only [String.append_assoc, Bool.not_true, Bool.not_false, if_true, if_false, reduceCtorEq]
  | cik =>
    have hlabel : (r"(?i:cik(?:[\s:#=\-]|no\.?)*)0*" : String) = "(?" ++ "i" ++ ":" ++
        ("cik" ++ ("(?:" ++ (r"[\s:#=\-]" ++ "|" ++ ("no" ++ (r"\." ++ "?"))) ++ ")" ++ "*")) ++ ")" ++ ("0" ++ "*") := by
      decide
    generalize toString (PyText.decimal (canon py a.text.val)) = digits
    simp only [hlabel, String.append_assoc, List.map_cons, List.map_nil, Rx.render, if_true]

/-- ASCII, and no letter. -/
def asciiMark (c : Char) : Bool := decide (c.toNat < 128) && !c.isAlpha

/-- What stands between `cik` and its number. -/
def CikLabel (label : List Char) : Prop :=
  ∃ items : List (List Char), label = "cik".toList ++ items.flatten ∧ ∀ item ∈ items,
    item ∈ [":".toList, "#".toList, "=".toList, "-".toList, "no".toList, "no.".toList] ∨ ∃ c, isSpace c = true ∧ item = [c]

/-- The rules of a Python's texts that the masker rests on. -/
structure TextRules where
  /-- `casefold` of a character. -/
  fold : Char → List Char
  /-- Letters that are one letter for `re.IGNORECASE`. -/
  same : Char → Char → Prop
  /-- `\w`. -/
  isWord : Char → Bool
  casefold_eq : ∀ text, py.casefold text = String.ofList (text.toList.flatMap fold)
  fold_fold : ∀ c, ∀ d ∈ fold c, fold d = [d]
  fold_ne_nil : ∀ c, fold c ≠ []
  fold_space : ∀ c, ∀ d ∈ fold c, isSpace d = isSpace c
  fold_ascii : ∀ c, c.toNat < 128 → fold c = [c.toLower]
  /-- Folding makes marks of no other character. -/
  fold_mark : ∀ c, ∀ d ∈ fold c, asciiMark d = true → c = d
  /-- Of ASCII letters nothing is normalized. -/
  nfkc_ascii : ∀ text, (∀ c ∈ text.toList, c.toNat < 128) → py.nfkc text = text
  /-- A part of a normalized text is normalized. -/
  normalize_part : ∀ text before m after, (normalize py text).toList = before ++ m ++ after →
    normalize py (String.ofList m) = String.ofList m
  /-- How the pattern of a CIK reads: the digits after the zeros are its group. -/
  cik_group : ∀ (label : List Char) (zeros n : Nat), label = [] ∨ CikLabel label →
    (py.fullmatch cikPattern (String.ofList (label ++ List.replicate zeros '0' ++ (toString n).toList))).bind
      (fun m => m.groups[0]?.join) = some (toString n)

namespace TextRules
variable {py} (rules : TextRules py)

/-- The texts that the pattern of an alias matches. -/
def Spells (a : Alias) (m : String) : Prop := ∃ r ∈ fragmentRxs py a, r.Matches rules.same false m.toList

/-- Letters that are one letter ignoring case, and fold alike. The letters `İ` and `ı` are one with `i` and fold to others. -/
def Alike (c d : Char) : Prop := rules.same c d ∧ rules.fold c = rules.fold d

/-- The alias spells the text with letters that fold alike. -/
def SpellsAlike (a : Alias) (m : String) : Prop := ∃ r ∈ fragmentRxs py a, r.Matches rules.Alike false m.toList

/-- A whole word that is an alias. -/
def WordOf (aliases : List Alias) (before m after : List Char) : Prop :=
  (∃ a ∈ aliases, rules.Spells a (String.ofList m)) ∧
    (∀ c ∈ before.getLast?, rules.isWord c = false) ∧ ∀ c ∈ after.head?, rules.isWord c = false

/-- `re.sub` reads the fragments of these aliases as their expressions. -/
def Reads (aliases : List Alias) : Prop :=
  ∀ ordered : List String, (∀ s, s ∈ ordered ↔ ∃ a ∈ aliases, s ∈ (fragments py a).1) →
    ∀ (f : RegexMatch → String) (text : String), ∃ pieces, Rx.Scan (rules.WordOf aliases) [] text.toList pieces ∧
      py.sub (r"(?<!\w)(?:" ++ String.intercalate "|" ordered ++ r")(?!\w)") false f text =
        String.ofList (pieces.flatMap (Rx.Piece.out fun m => (f ⟨String.ofList m, []⟩).toList))

end TextRules
end Partitioner
end AsymmetricCommittee
