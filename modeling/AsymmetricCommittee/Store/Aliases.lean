import AsymmetricCommittee.Agents.Partitioner

/-! Aliases of people (`store/aliases.py`): the forms of a filed name that prose uses, added to the aliases of its security. -/

namespace AsymmetricCommittee
namespace Aliases

/-- What `add_people` raises. -/
inductive AliasError where
  /-- `ValueError` of unpacking a name that has no words. -/
  | blankName
  /-- `ValidationError`: a form is no alias text. -/
  | aliasText
  deriving DecidableEq, Repr

/-- `text.strip()`. -/
def strip (text : String) : String :=
  String.ofList ((text.toList.dropWhile PyText.isSpace).reverse.dropWhile PyText.isSpace).reverse

/-- `text.strip(mark)` of one character. -/
def stripMark (mark : Char) (text : String) : String :=
  String.ofList ((text.toList.dropWhile (· = mark)).reverse.dropWhile (· = mark)).reverse

/-- `_MIN_SHORT_NAME`. -/
def minShortName : Nat := 3

/-- `_SUFFIXES`. -/
def suffixes : List String := ["jr", "sr", "ii", "iii", "iv", "md", "phd"]

/-- `_MIN_SURNAME`. -/
def minSurname : Nat := 5

/-- The surname of a filed name and the words after it; a comma ends the surname. -/
def surname (text : String) : Except AliasError (String × List String) :=
  if ',' ∈ text.toList then
    let parts := text.toList.span (· ≠ ',')
    .ok (strip (String.ofList parts.1), PyText.words (String.ofList (parts.2.drop 1)))
  else
    match PyText.words text with
    | [] => .error .blankName
    | last :: parts => .ok (last, parts)

variable (py : PyText) (isAlpha : String → Bool)

/-- The forms of a name with a surname and given names. -/
def forms (text last given : String) (initials : List String) : List String :=
  [text, given ++ " " ++ last] ++
    (if initials = [] then []
      else [given ++ " " ++ String.intercalate " " initials ++ " " ++ last,
        given ++ " " ++ String.intercalate " " (initials.map (· ++ ".")) ++ " " ++ last]) ++
    if isAlpha last = true ∧ minSurname ≤ last.length then [last] else []

/-- `name_variants`. -/
def nameVariants (filed : String) : Except AliasError (List String) := do
  let text := strip filed
  let (last, words) ← surname text
  let parts := (words.filter fun p => decide (py.lower (stripMark '.' p) ∉ suffixes)).map (stripMark '.')
  match parts with
  | [] => return [text]
  | given :: initials =>
    if last = "" then return [text]
    else return ((forms isAlpha text last given initials).filter fun f => decide (minShortName ≤ f.length)).eraseDups

/-- `AliasText`. A form starts and ends with no blank, so of the pattern only the line break is left. -/
def aliasText (text : String) : Option (Text 256) :=
  if h : (1 ≤ text.length ∧ text.length ≤ 256) ∧ '\n' ∉ text.toList then some ⟨text, h.1⟩ else none

/-- A person alias. -/
def personAlias (text canonical : Text 256) : Alias :=
  ⟨text, .person, some canonical, iff_of_true rfl rfl, nofun, nofun⟩

/-- One form of a filer, unless it is there already. -/
def addForm (filer : String) (s : List (AliasKind × String) × List Alias) (text : String) :
    Except AliasError (List (AliasKind × String) × List Alias) :=
  if (AliasKind.person, py.casefold text) ∈ s.1 then .ok s
  else
    match aliasText text, aliasText (strip filer) with
    | some text, some canonical => .ok (s.1 ++ [(.person, py.casefold text.val)], s.2 ++ [personAlias text canonical])
    | _, _ => .error .aliasText

/-- The forms of one filer. -/
def addFiler (s : List (AliasKind × String) × List Alias) (filer : String) :
    Except AliasError (List (AliasKind × String) × List Alias) := do
  let variants ← nameVariants py isAlpha filer
  variants.foldlM (addForm py filer) s

/-- The aliases of one security with those of its filers. -/
def addFilers (s : SecurityAliases) (filers : List String) : Except AliasError SecurityAliases := do
  let seen := s.aliases.map fun a => (a.kind, py.casefold a.text.val)
  let (_, extra) ← filers.eraseDups.foldlM (addFiler py isAlpha) (seen, [])
  return ⟨s.securityId, s.aliases ++ extra, fun kind hkind =>
    let ⟨a, ha, h⟩ := s.kinds_given kind hkind
    ⟨a, List.mem_append_left _ ha, h⟩⟩

/-- `filers.get(security_id, ())`. -/
def filersOf (filers : Dict SecurityId (List String)) (s : SecurityAliases) : List String := (filers.get? s.securityId).getD []

theorem addFilers_securityId {s s' : SecurityAliases} {names : List String} (h : addFilers py isAlpha s names = .ok s') :
    s'.securityId = s.securityId := by
  obtain ⟨_, _, h⟩ := Except.bind_eq_ok.mp h
  cases h
  rfl

/-- `add_people`. -/
def addPeople (aliasList : AliasList) (filers : Dict SecurityId (List String)) : Except AliasError AliasList :=
  match h : aliasList.securities.mapM fun s => addFilers py isAlpha s (filersOf filers s) with
  | .error e => .error e
  | .ok securities => .ok ⟨aliasList.asOf, securities, by
      have hids : securities.map (·.securityId) = aliasList.securities.map (·.securityId) :=
        (Forall₂.map_eq (Except.mapM_eq_ok.mp h) fun _ _ h => (addFilers_securityId py isAlpha h).symm).symm
      rw [hids]
      exact aliasList.ids_unique⟩

end Aliases
end AsymmetricCommittee
