import AsymmetricCommittee.Theorems.AliasKeys
import Mathlib

/-! What the masker does with the matches of a text. A match that an alias spells in a way that its keys undo has an owner,
    and it is replaced: by the token of the owner, by the shared token if several own it, and by the pseudonym of a person
    if it may name one. -/

namespace AsymmetricCommittee
namespace AliasMasker
open Partitioner
variable {py : PyText} {aliases : AliasList} {tokens : Dict SecurityId String} {masker : AliasMasker} {m : String}

/-! ### What the masker does -/

theorem make_eq_ok (h : make py aliases tokens = .ok masker) :
    (∀ s ∈ aliases.securities, (tokens.get? s.securityId).isSome) ∧
      masker = ⟨tokens, (tables py aliases).owners, (tables py aliases).person, combined (tables py aliases).fragments⟩ := by
  unfold make at h
  split_ifs at h with hmissing
  cases h
  refine ⟨fun s hs => ?_, rfl⟩
  by_contra hnone
  exact hmissing (List.any_eq_true.mpr ⟨s, hs, by simpa using hnone⟩)

theorem replace_of_owner {self : AliasMasker} {keys : List String} {owner : SecurityId}
    (hkeys : candidateKeys py m = keys)
    (howners : (keys.flatMap fun key => (self.owners.get? key).getD []).dedup = [owner]) :
    self.replace py ⟨m, []⟩ =
      (keys.findSome? fun key => self.person.get? key).getD ((self.tokens.get? owner).getD "") := by
  rw [replace, hkeys, howners]
  dsimp only
  cases keys.findSome? fun key => self.person.get? key <;> rfl

/-- A match with one owner and of no person is replaced by the token of the owner. -/
theorem replace_token (h : make py aliases tokens = .ok masker) {sid : SecurityId} (hsid : Owns py aliases m sid)
    (hone : ∀ sid', Owns py aliases m sid' → sid' = sid)
    (hnone : ∀ x ∈ entries aliases, Denotes py m x.2 → x.2.canonical = none) :
    tokens.get? sid = some (masker.replace py ⟨m, []⟩) := by
  have howners : ((candidateKeys py m).flatMap fun key => (masker.owners.get? key).getD []).dedup = [sid] := by
    refine List.perm_singleton.mp ((List.perm_ext_iff_of_nodup (List.nodup_dedup _) (List.nodup_singleton _)).mpr fun sid' => ?_)
    rw [mem_candidates h, List.mem_singleton]
    exact ⟨hone sid', fun heq => heq ▸ hsid⟩
  have hperson : (candidateKeys py m).findSome? (fun key => masker.person.get? key) = none := by
    refine List.findSome?_eq_none_iff.mpr fun key hkey => ?_
    by_contra hsome
    obtain ⟨token, htoken⟩ := Option.ne_none_iff_exists'.mp hsome
    rw [(of_make h).2] at htoken
    obtain ⟨x, hx, canonical, hcanonical, rfl, -⟩ := of_person htoken
    rw [hnone x hx hkey] at hcanonical
    cases hcanonical
  obtain ⟨hgiven, rfl⟩ := make_eq_ok h
  obtain ⟨x, hx, -, rfl⟩ := hsid
  obtain ⟨token, htoken⟩ := Option.isSome_iff_exists.mp (hgiven x.1 (mem_entries.mp hx).1)
  rw [replace_of_owner rfl howners, hperson, htoken]
  rfl

variable (py aliases tokens masker) in
/-- What the masker replaces a match by: the token of its owner, the shared one if several own it, and the pseudonym of a
    person if the match may be an alias of a person of its owner. -/
structure Masked (m : String) : Prop where
  owned : ∃ sid, Owns py aliases m sid
  shared : ∀ sid sid', Owns py aliases m sid → Owns py aliases m sid' → sid ≠ sid' →
    masker.replace py ⟨m, []⟩ = sharedToken
  person : ∀ sid, (∀ sid', Owns py aliases m sid' → sid' = sid) →
    (∃ x ∈ entries aliases, Denotes py m x.2 ∧ x.2.canonical.isSome) →
    ∃ x ∈ entries aliases, ∃ canonical, x.2.canonical = some canonical ∧ Denotes py m x.2 ∧
      masker.replace py ⟨m, []⟩ = personToken py canonical.val (cikOf x.1)
  token : ∀ sid, Owns py aliases m sid → (∀ sid', Owns py aliases m sid' → sid' = sid) →
    (∀ x ∈ entries aliases, Denotes py m x.2 → x.2.canonical = none) →
    tokens.get? sid = some (masker.replace py ⟨m, []⟩)

theorem masked_of_denotes (h : make py aliases tokens = .ok masker) {x : SecurityAliases × Alias} (hx : x ∈ entries aliases)
    (hden : Denotes py m x.2) : Masked py aliases tokens masker m where
  owned := ⟨x.1.securityId, x, hx, hden, rfl⟩
  shared _ _ hsid hsid' hne := replace_shared (m := ⟨m, []⟩) h hne hsid hsid'
  person _ hone hperson := by
    obtain ⟨y, hy, hdeny, hsome⟩ := hperson
    exact replace_person (m := ⟨m, []⟩) h hone hy hdeny hsome
  token _ hsid hone hnone := replace_token h hsid hone hnone

/-- The aliases of all securities. -/
def aliasesOf (aliases : AliasList) : List Alias := (entries aliases).map Prod.snd

theorem addAlias_fragments (sid : SecurityId) (cik : Nat) (t : Tables) (a : Alias) : (addAlias py sid cik t a).fragments =
    (fragments py a).1.foldl (fun d frag => d.set frag (max ((d.get? frag).getD 0) (canon py a.text.val).length)) t.fragments := by
  have hkeys : (fragments py a).2 = [keyOf py a] := keys_fragments a
  unfold addAlias
  generalize fragments py a = f at hkeys
  obtain ⟨frags, keys⟩ := f
  have hkeys : keys = [keyOf py a] := hkeys
  subst hkeys
  rfl

theorem mem_fragments_foldl {l : List (SecurityAliases × Alias)} {t : Tables} {frag : String} :
    frag ∈ (l.foldl (fun t x => addAlias py x.1.securityId (cikOf x.1) t x.2) t).fragments.keys ↔
      frag ∈ t.fragments.keys ∨ ∃ x ∈ l, frag ∈ (fragments py x.2).1 := by
  induction l generalizing t with
  | nil => simp
  | cons x l ih =>
    rw [List.foldl_cons, ih, addAlias_fragments, Dict.mem_keys_foldl_set, or_assoc, List.exists_mem_cons_iff]
    simp

/-- The pattern is made of the fragments of all aliases. -/
theorem mem_fragments {frag : String} :
    frag ∈ (tables py aliases).fragments.keys ↔ ∃ a ∈ aliasesOf aliases, frag ∈ (fragments py a).1 := by
  rw [tables_eq, mem_fragments_foldl, aliasesOf]
  refine (or_iff_right List.not_mem_nil).trans ⟨fun ⟨x, hx, hfrag⟩ => ⟨x.2, List.mem_map_of_mem hx, hfrag⟩, fun ⟨a, ha, hfrag⟩ => ?_⟩
  obtain ⟨x, hx, rfl⟩ := List.mem_map.mp ha
  exact ⟨x, hx, hfrag⟩

/-- Without a fragment there is no pattern, and then there is no alias. -/
theorem aliasesOf_eq_nil (h : combined (tables py aliases).fragments = none) : aliasesOf aliases = [] := by
  unfold combined at h
  dsimp only at h
  split at h
  · next hnil =>
    refine List.eq_nil_iff_forall_not_mem.mpr fun a ha => ?_
    obtain ⟨frag, hfrag⟩ : ∃ frag, frag ∈ (fragments py a).1 := by
      unfold fragments
      cases a.kind <;> exact ⟨_, List.mem_cons_self⟩
    have hmem := mem_fragments.mpr ⟨a, ha, hfrag⟩
    rw [← Dict.mem_keys_sort, hnil] at hmem
    exact absurd hmem List.not_mem_nil
  · cases h

theorem combined_eq_some {pattern : String} (h : combined (tables py aliases).fragments = some pattern) :
    ∃ ordered : List String, (∀ s, s ∈ ordered ↔ ∃ a ∈ aliasesOf aliases, s ∈ (fragments py a).1) ∧
      pattern = r"(?<!\w)(?:" ++ String.intercalate "|" ordered ++ r")(?!\w)" := by
  unfold combined at h
  dsimp only at h
  split at h
  · cases h
  · exact ⟨_, fun s => by rw [Dict.mem_keys_sort, mem_fragments], (Option.some.inj h).symm⟩

theorem scan_kept {At : List Char → List Char → List Char → Prop} (h : ∀ before m after, ¬At before m after)
    (before rest : List Char) : Rx.Scan At before rest (rest.map .kept) := by
  induction rest generalizing before with
  | nil => exact .done before
  | cons c rest ih => exact .keep (fun m after _ _ => h before m after) (ih _)

/-- The masker scans the normalized text for the aliases, and replaces every match. -/
theorem mask_scans (rules : TextRules py) (h : make py aliases tokens = .ok masker) (hreads : rules.Reads (aliasesOf aliases))
    (text : String) : ∃ pieces, Rx.Scan (rules.WordOf (aliasesOf aliases)) [] (normalize py text).toList pieces ∧
      masker.mask py text = String.ofList (pieces.flatMap
        (Rx.Piece.out fun m => (masker.replace py ⟨String.ofList m, []⟩).toList)) := by
  obtain ⟨-, rfl⟩ := make_eq_ok h
  rw [mask]
  dsimp only
  split
  · next hnone =>
    have hnil := aliasesOf_eq_nil hnone
    refine ⟨(normalize py text).toList.map .kept, scan_kept (fun before m after hat => ?_) _ _, ?_⟩
    · obtain ⟨⟨a, ha, -⟩, -⟩ := hat
      rw [hnil] at ha
      exact absurd ha List.not_mem_nil
    · have hout : ∀ cs : List Char, (cs.map Rx.Piece.kept).flatMap (Rx.Piece.out fun m =>
          (replace py ⟨tokens, (tables py aliases).owners, (tables py aliases).person,
            combined (tables py aliases).fragments⟩ ⟨String.ofList m, []⟩).toList) = cs := by
        intro cs
        rw [List.flatMap_map]
        exact List.flatMap_singleton' cs
      rw [hout, String.ofList_toList]
  · next pattern hsome =>
    obtain ⟨ordered, hordered, rfl⟩ := combined_eq_some hsome
    exact hreads ordered hordered _ _

/-- Every match of an alias that spells it with letters of the same folding, in a spelling that the keys undo, has an owner
    and is replaced. -/
theorem matches_masked (rules : TextRules py) (h : make py aliases tokens = .ok masker)
    (hreads : rules.Reads (aliasesOf aliases)) (text : String) :
    ∃ pieces, Rx.Scan (rules.WordOf (aliasesOf aliases)) [] (normalize py text).toList pieces ∧
      masker.mask py text = String.ofList (pieces.flatMap
        (Rx.Piece.out fun m => (masker.replace py ⟨String.ofList m, []⟩).toList)) ∧
      ∀ m, Rx.Piece.hit m ∈ pieces → ∀ a ∈ aliasesOf aliases, rules.SpellsAlike a (String.ofList m) →
        Undone py a (String.ofList m) → Masked py aliases tokens masker (String.ofList m) := by
  obtain ⟨pieces, hscan, hmask⟩ := mask_scans rules h hreads text
  refine ⟨pieces, hscan, hmask, fun m hm a ha hspells hundone => ?_⟩
  obtain ⟨left, right, hpieces⟩ := List.append_of_mem hm
  have hnorm : normalize py (String.ofList m) = String.ofList m := by
    refine rules.normalize_part text (left.flatMap Rx.Piece.text) m (right.flatMap Rx.Piece.text) ?_
    rw [← hscan.text_eq, hpieces, List.flatMap_append, List.flatMap_cons, Rx.Piece.text, List.append_assoc]
  obtain ⟨x, hx, rfl⟩ := List.mem_map.mp ha
  exact masked_of_denotes h hx (denotes_of_spells rules hnorm hspells hundone)

/-! ### A library that reads the patterns -/

section Sample
open PyText (isSpace decimal)

/-- The letter that stands for all that are one with it, ignoring case. -/
def caseless (c : Char) : Char := if c = '\u0130' ∨ c = '\u0131' then 'i' else c.toLower

def foldLetter (c : Char) : List Char :=
  if c = '\u0130' then ['i', '\u0307'] else if c.toNat < 128 then [c.toLower] else [c]

def wordLetter (c : Char) : Bool := c.isAlphanum || c = '_' || c = '\u0130' || c = '\u0131'

/-- The label of `cikPattern`. -/
def labelRx : Rx :=
  .seq (.lit "cik" "cik") (.star (.group (.alt
    (.cls r"[\s:#=\-]" fun c => isSpace c || c = ':' || c = '#' || c = '=' || c = '-')
    (.seq (.lit "no" "no") (.opt (.cls r"\." fun c => decide (c = '.')))))))

/-- `cikPattern` of a text: a label or none, and then digits. -/
def matchCik (text : String) : Option RegexMatch :=
  let label := text.toList.takeWhile fun c => !c.isDigit
  let digits := text.toList.dropWhile fun c => !c.isDigit
  if digits ≠ [] ∧ digits.all Char.isDigit ∧
      (label = [] ∨ (label, []) ∈ labelRx.ways (fun c d => caseless c == caseless d) false label) then
    some ⟨text, [some (toString (decimal (String.ofList digits)))]⟩
  else none

/-- The methods of texts, without a reader of aliases. -/
def foldText : PyText where
  nfkc := id
  casefold text := String.ofList (text.toList.flatMap foldLetter)
  upper text := text.map Char.toUpper
  lower text := text.map Char.toLower
  isDigit := Char.isDigit
  search _ _ _ := false
  fullmatch pattern text := if pattern = cikPattern then matchCik text else none
  sub _ _ _ text := String.ofList (text.toList.filter wordLetter)
  escape := id
  sha256 := id

/-- The first whole word of one character or more that one of the expressions reads. -/
def nextWord (rs : List Rx) (before rest : List Char) : Option (List Char × List Char) :=
  if before.getLast?.any wordLetter then none
  else (rs.flatMap fun r => r.ways (fun c d => caseless c == caseless d) false rest).find? fun x =>
    !x.1.isEmpty && !x.2.head?.any wordLetter

/-- The methods of texts, with the reader of these aliases. -/
def scanText (aliases : List Alias) : PyText :=
  { foldText with
    sub := fun pattern ignoreCase f text =>
      if pattern = r"\W" then foldText.sub pattern ignoreCase f text
      else String.ofList ((Rx.piecesFrom (nextWord (aliases.flatMap (fragmentRxs foldText))) 0 [] text.toList).flatMap
        (Rx.Piece.out fun m => (f ⟨String.ofList m, []⟩).toList)) }

variable {l : List Alias}

theorem fragmentRxs_scanText (a : Alias) : fragmentRxs (scanText l) a = fragmentRxs foldText a := by
  unfold fragmentRxs
  cases a.kind <;> rfl

theorem foldLetter_ascii {c : Char} (h : c.toNat < 128) : foldLetter c = [c.toLower] := by
  rw [foldLetter, if_neg, if_pos h]
  rintro rfl
  exact absurd h (by decide)

/-- A lower case letter of ASCII is 32 behind its capital. -/
theorem toLower_cases (c : Char) :
    c.toLower = c ∨ (65 ≤ c.toNat ∧ c.toNat ≤ 90 ∧ c.toLower.toNat = c.toNat + 32) := by
  rw [Char.toLower]
  split
  · next h =>
    have hlo : 65 ≤ c.toNat := UInt32.le_iff_toNat_le.mp h.1
    have hhi : c.toNat ≤ 90 := UInt32.le_iff_toNat_le.mp h.2
    refine .inr ⟨hlo, hhi, ?_⟩
    change (c.val + ('a'.val - 'A'.val)).toNat = c.val.toNat + 32
    have hhi : c.val.toNat ≤ 90 := hhi
    rw [UInt32.toNat_add]
    exact Nat.mod_eq_of_lt (by change c.val.toNat + 32 < _; omega)
  · exact .inl rfl

/-- What a letter folds to. -/
theorem mem_foldLetter {c d : Char} (h : d ∈ foldLetter c) :
    (d = c ∧ c ≠ '\u0130' ∧ c.toLower = c) ∨ (65 ≤ c.toNat ∧ c.toNat ≤ 90 ∧ d.toNat = c.toNat + 32) ∨
      (c = '\u0130' ∧ (d = 'i' ∨ d = '\u0307')) := by
  unfold foldLetter at h
  split at h
  · next hc => exact .inr (.inr ⟨hc, by simpa using h⟩)
  · next hc =>
    split at h
    · rw [List.mem_singleton] at h
      rcases toLower_cases c with hsame | ⟨hlo, hhi, hnat⟩
      · exact .inl ⟨h.trans hsame, hc, hsame⟩
      · exact .inr (.inl ⟨hlo, hhi, h ▸ hnat⟩)
    · next hascii =>
      rw [List.mem_singleton] at h
      refine .inl ⟨h, hc, (toLower_cases c).resolve_right ?_⟩
      rintro ⟨-, hhi, -⟩
      omega

theorem foldLetter_self {c : Char} (hc : c ≠ '\u0130') (hlower : c.toLower = c) : foldLetter c = [c] := by
  rw [foldLetter, if_neg hc, hlower, ite_self]

theorem isSpace_eq_false {c : Char} (hlo : 65 ≤ c.toNat) (hhi : c.toNat < 128) : isSpace c = false := by
  simp only [isSpace, Bool.or_eq_false_iff, Bool.and_eq_false_iff, decide_eq_false_iff_not]
  omega

/-- A blank is no digit. -/
theorem isDigit_of_isSpace {c : Char} (h : isSpace c = true) : c.isDigit = false := by
  by_contra hdigit
  simp only [Char.isDigit, Bool.not_eq_false, Bool.and_eq_true, decide_eq_true_eq] at hdigit
  have hlo : 48 ≤ c.toNat := UInt32.le_iff_toNat_le.mp hdigit.1
  have hhi : c.toNat ≤ 57 := UInt32.le_iff_toNat_le.mp hdigit.2
  rw [isSpace_of_ascii (by omega) (by omega)] at h
  cases h

/-- The letters of a label are no digits. -/
theorem not_digit_of_label {label : List Char} (h : label = [] ∨ CikLabel label) :
    label.all (fun c => !c.isDigit) = true := by
  rcases h with rfl | ⟨items, rfl, hitems⟩
  · rfl
  · have hmarks : [":".toList, "#".toList, "=".toList, "-".toList, "no".toList, "no.".toList].all
        (fun item => item.all fun c => !c.isDigit) = true := by decide
    rw [List.all_append, List.all_flatten, Bool.and_eq_true]
    refine ⟨by decide, List.all_eq_true.mpr fun item hitem => ?_⟩
    rcases hitems item hitem with hitem | ⟨c, hc, rfl⟩
    · exact List.all_eq_true.mp hmarks item hitem
    · rw [List.all_cons, isDigit_of_isSpace hc]
      rfl

theorem labelRx_matches {label : List Char} (h : CikLabel label) :
    labelRx.Matches (fun c d => (caseless c == caseless d) = true) false label := by
  obtain ⟨items, rfl, hitems⟩ := h
  refine ⟨"cik".toList, items.flatten, rfl, rfl, items, rfl, fun item hitem => ?_⟩
  rcases hitems item hitem with hitem | ⟨c, hc, rfl⟩
  · simp only [List.mem_cons, List.not_mem_nil, or_false] at hitem
    rcases hitem with rfl | rfl | rfl | rfl | rfl | rfl
    · exact .inl ⟨':', rfl, rfl⟩
    · exact .inl ⟨'#', rfl, rfl⟩
    · exact .inl ⟨'=', rfl, rfl⟩
    · exact .inl ⟨'-', rfl, rfl⟩
    · exact .inr ⟨"no".toList, [], rfl, rfl, .inl rfl⟩
    · exact .inr ⟨"no".toList, ['.'], rfl, rfl, .inr ⟨'.', rfl, rfl⟩⟩
  · exact .inl ⟨c, rfl, by simp [hc]⟩

theorem decimal_padded (zeros n : Nat) :
    decimal (String.ofList (List.replicate zeros '0' ++ (toString n).toList)) = n := by
  have hdecimal : ∀ cs, decimal (String.ofList cs) = Nat.ofDigitChars 10 cs 0 := by
    intro cs
    rw [decimal, String.toList_ofList, Nat.ofDigitChars_eq_foldl]
    simp only [Nat.mul_comm]
    rfl
  rw [hdecimal, Nat.ofDigitChars_append, Nat.ofDigitChars_replicate_zero, Nat.mul_zero, Nat.toString_eq_ofList_toDigits,
    String.toList_ofList, Nat.ofDigitChars_ten_toDigits]

theorem matchCik_padded {label : List Char} {zeros n : Nat} (h : label = [] ∨ CikLabel label) :
    matchCik (String.ofList (label ++ List.replicate zeros '0' ++ (toString n).toList)) =
      some ⟨String.ofList (label ++ List.replicate zeros '0' ++ (toString n).toList), [some (toString n)]⟩ := by
  have hlabel := List.all_eq_true.mp (not_digit_of_label h)
  have hpad : ∀ c ∈ List.replicate zeros '0' ++ (toString n).toList, c.isDigit = true := fun c => isDigit_padded
  obtain ⟨d, ds, hds⟩ : ∃ d ds, List.replicate zeros '0' ++ (toString n).toList = d :: ds := by
    refine List.exists_cons_of_ne_nil (List.append_ne_nil_of_right_ne_nil _ ?_)
    rw [Nat.toString_eq_ofList_toDigits, String.toList_ofList]
    exact Nat.toDigits_ne_nil
  have hd : (!d.isDigit) = false := by rw [hpad d (hds ▸ List.mem_cons_self)]; rfl
  have hreads : label = [] ∨ (label, []) ∈ labelRx.ways (fun c d => caseless c == caseless d) false label :=
    h.imp_right fun hlabel => Rx.mem_ways.mpr ⟨(List.append_nil _).symm, labelRx_matches hlabel⟩
  have htake : (label ++ (List.replicate zeros '0' ++ (toString n).toList)).takeWhile (fun c => !c.isDigit) = label := by
    rw [List.takeWhile_append_of_pos hlabel, hds, List.takeWhile_cons_of_neg (by rw [hd]; exact Bool.false_ne_true),
      List.append_nil]
  have hdrop : (label ++ (List.replicate zeros '0' ++ (toString n).toList)).dropWhile (fun c => !c.isDigit) =
      List.replicate zeros '0' ++ (toString n).toList := by
    rw [List.dropWhile_append_of_pos hlabel, hds, List.dropWhile_cons_of_neg (by rw [hd]; exact Bool.false_ne_true)]
  rw [matchCik, String.toList_ofList, List.append_assoc, htake, hdrop,
    if_pos ⟨hds ▸ List.cons_ne_nil d ds, List.all_eq_true.mpr hpad, hreads⟩, decimal_padded]

def scanRules (l : List Alias) : TextRules (scanText l) where
  fold := foldLetter
  same c d := (caseless c == caseless d) = true
  isWord := wordLetter
  casefold_eq _ := rfl
  fold_fold c d hd := by
    rcases mem_foldLetter hd with ⟨rfl, hc, hlower⟩ | ⟨hlo, hhi, hnat⟩ | ⟨-, rfl | rfl⟩
    · exact foldLetter_self hc hlower
    · refine foldLetter_self ?_ ((toLower_cases d).resolve_right ?_)
      · rintro rfl
        exact absurd hnat (by change 304 ≠ _; omega)
      · rintro ⟨-, h, -⟩
        omega
    · rfl
    · rfl
  fold_ne_nil c := by
    unfold foldLetter
    split
    · exact List.cons_ne_nil _ _
    · split <;> exact List.cons_ne_nil _ _
  fold_space c d hd := by
    rcases mem_foldLetter hd with ⟨rfl, -, -⟩ | ⟨hlo, hhi, hnat⟩ | ⟨rfl, rfl | rfl⟩
    · rfl
    · rw [isSpace_eq_false hlo (by omega), isSpace_eq_false (by omega) (by omega)]
    · decide
    · decide
  fold_ascii c hc := foldLetter_ascii hc
  fold_mark c d hd hmark := by
    rcases mem_foldLetter hd with ⟨rfl, -, -⟩ | ⟨hlo, hhi, hnat⟩ | ⟨rfl, rfl | rfl⟩
    · rfl
    · have hlo : 'a'.toNat ≤ d.toNat := by change 97 ≤ _; omega
      have hhi : d.toNat ≤ 'z'.toNat := by change _ ≤ 122; omega
      have hlower : d.isLower = true := Bool.and_eq_true_iff.mpr
        ⟨decide_eq_true (UInt32.le_iff_toNat_le.mpr hlo), decide_eq_true (UInt32.le_iff_toNat_le.mpr hhi)⟩
      rw [asciiMark, Char.isAlpha, hlower, Bool.or_true, Bool.not_true, Bool.and_false] at hmark
      cases hmark
    · exact absurd hmark (by decide)
    · exact absurd hmark (by decide)
  nfkc_ascii _ _ := rfl
  normalize_part text before m after h := by
    have hnormalize : ∀ t, (normalize (scanText l) t).toList =
        t.toList.map fun c => if c = '\u2019' || c = '\u2018' || c = '\u02bc' then '\'' else c := fun t => String.toList_map
    rw [hnormalize] at h
    rw [← String.toList_inj, hnormalize]
    refine (List.map_congr_left fun c hc => ?_).trans (List.map_id _)
    have hmem : c ∈ before ++ m ++ after := List.mem_append_left _ (List.mem_append_right _ (by rwa [String.toList_ofList] at hc))
    rw [← h] at hmem
    obtain ⟨d, -, rfl⟩ := List.mem_map.mp hmem
    by_cases hd : (d = '\u2019' || d = '\u2018' || d = '\u02bc') = true
    · rw [if_pos hd]
      rfl
    · rw [if_neg hd]
      exact if_neg hd
  cik_group label zeros n hlabel := by
    have hmatch : (scanText l).fullmatch cikPattern = matchCik := by
      funext text
      change (if cikPattern = cikPattern then matchCik text else none) = matchCik text
      exact if_pos rfl
    rw [hmatch, matchCik_padded hlabel]
    rfl

theorem nextWord_at {before rest m after : List Char}
    (h : nextWord (l.flatMap (fragmentRxs foldText)) before rest = some (m, after)) :
    m ≠ [] ∧ rest = m ++ after ∧ (scanRules l).WordOf l before m after := by
  unfold nextWord at h
  split at h
  · cases h
  · next hbefore =>
    obtain ⟨r, hr, hways⟩ := List.mem_flatMap.mp (List.mem_of_find?_eq_some h)
    obtain ⟨a, ha, hr⟩ := List.mem_flatMap.mp hr
    obtain ⟨hrest, hmatch⟩ := Rx.mem_ways.mp hways
    have hword := List.find?_some h
    rw [Bool.and_eq_true] at hword
    obtain ⟨hne, hafter⟩ := hword
    refine ⟨by simpa using hne, hrest, ⟨a, ha, r, fragmentRxs_scanText (l := l) a ▸ hr, ?_⟩, fun c hc => ?_, fun c hc => ?_⟩
    · rwa [String.toList_ofList]
    · rw [Option.mem_def.mp hc] at hbefore
      exact Bool.eq_false_of_not_eq_true hbefore
    · rw [Option.mem_def.mp hc] at hafter
      rwa [Bool.not_eq_true'] at hafter

theorem nextWord_none {before rest m after : List Char}
    (h : nextWord (l.flatMap (fragmentRxs foldText)) before rest = none) (hm : m ≠ []) (hrest : rest = m ++ after) :
    ¬(scanRules l).WordOf l before m after := by
  rintro ⟨⟨a, ha, r, hr, hmatch⟩, hbefore, hafter⟩
  have hword : ∀ o : Option Char, (∀ c ∈ o, wordLetter c = false) → o.any wordLetter = false := by
    intro o ho
    cases o with
    | none => rfl
    | some c => exact ho c rfl
  rw [String.toList_ofList] at hmatch
  rw [fragmentRxs_scanText] at hr
  rw [nextWord, if_neg (by rw [hword _ hbefore]; exact Bool.false_ne_true)] at h
  have hnone := List.find?_eq_none.mp h (m, after)
    (List.mem_flatMap.mpr ⟨r, List.mem_flatMap.mpr ⟨a, ha, hr⟩, Rx.mem_ways.mpr ⟨hrest, hmatch⟩⟩)
  refine hnone ?_
  rw [hword _ hafter]
  simpa using hm

/-- A pattern of words is not the pattern of `short`. -/
theorem wordPattern_ne (ordered : List String) :
    r"(?<!\w)(?:" ++ String.intercalate "|" ordered ++ r")(?!\w)" ≠ r"\W" := by
  intro h
  have hchars := congrArg (fun text => text.toList.head?) h
  simp [String.toList_append] at hchars

theorem scanText_sub {pattern : String} (h : pattern ≠ r"\W") (f : RegexMatch → String) (text : String) :
    (scanText l).sub pattern false f text =
      String.ofList ((Rx.piecesFrom (nextWord (l.flatMap (fragmentRxs foldText))) 0 [] text.toList).flatMap
        (Rx.Piece.out fun m => (f ⟨String.ofList m, []⟩).toList)) := if_neg h

theorem scanText_reads (l : List Alias) : (scanRules l).Reads l := by
  intro ordered _ f text
  have hscan : Rx.Scan ((scanRules l).WordOf l) [] text.toList
      (Rx.piecesFrom (nextWord (l.flatMap (fragmentRxs foldText))) 0 [] text.toList) := by
    refine Rx.scan_piecesFrom ?_ ?_ [] text.toList
    · exact fun before rest m after h => nextWord_at h
    · exact fun before rest h m after hm hrest => nextWord_none h hm hrest
  exact ⟨_, hscan, scanText_sub (wordPattern_ne ordered) f text⟩

/-! ### Spellings -/

def brandAlias (text : Text 256) : Alias := ⟨text, .brand, none, by decide, nofun, nofun⟩

def cashAliases : SecurityAliases where
  securityId := ⟨1, Samples.one_securityId⟩
  aliases := [nameAlias ⟨"Baltic Air", by decide⟩, tickerAlias ⟨"A.B", by decide⟩ (by decide),
    cikAlias ⟨"8", by decide⟩ (by simp), brandAlias ⟨"$Cash", by decide⟩,
    Aliases.personAlias ⟨"Jane Smith", by decide⟩ ⟨"SMITH JANE", by decide⟩]
  kinds_given := by decide

def cashList : AliasList := ⟨⟨0, 0⟩, [cashAliases], List.nodup_singleton _⟩

def cashText : PyText := scanText cashAliases.aliases

theorem aliasesOf_cash : aliasesOf cashList = cashAliases.aliases := rfl

def cashToken : SecurityId × String := (⟨1, Samples.one_securityId⟩, "IND_01")

theorem cashToken_nodup : ([cashToken].map Prod.fst).Nodup := List.nodup_singleton _

def cashTokens : Dict SecurityId String := ⟨[cashToken], cashToken_nodup⟩

/-- The masker, but for the text of its pattern. -/
def cashMasker (pattern : Option String) : AliasMasker :=
  ⟨cashTokens, (tables cashText cashList).owners, (tables cashText cashList).person, pattern⟩

theorem make_cash : make cashText cashList cashTokens = .ok (cashMasker (combined (tables cashText cashList).fragments)) := by
  rw [make, if_neg (by decide), if_neg (by decide), if_neg (by decide)]
  rfl

theorem replace_cash (pattern : Option String) :
    (cashMasker pattern).replace cashText = (cashMasker none).replace cashText := by
  funext m
  rw [replace, replace]
  dsimp only [cashMasker]

/-- The expressions of the aliases. -/
def cashRxs : List Rx := cashAliases.aliases.flatMap (fragmentRxs foldText)

variable {m : String}

/-- A text that is read as one word is replaced as one match. -/
theorem mask_word (hnorm : normalize cashText m = m) (hword : nextWord cashRxs [] m.toList = some (m.toList, [])) :
    (cashMasker (combined (tables cashText cashList).fragments)).mask cashText m =
      (cashMasker none).replace cashText ⟨m, []⟩ := by
  rcases hcombined : combined (tables cashText cashList).fragments with - | pattern
  · exact absurd (aliasesOf_eq_nil hcombined) (List.cons_ne_nil _ _)
  · obtain ⟨ordered, -, rfl⟩ := combined_eq_some hcombined
    have hpieces : Rx.piecesFrom (nextWord cashRxs) 0 [] m.toList = [.hit m.toList] := by
      obtain ⟨c, cs, hcs⟩ := List.exists_cons_of_ne_nil (nextWord_at hword).1
      rw [hcs] at hword ⊢
      have hskip := Rx.piecesFrom_skip (nextWord cashRxs) [c] cs []
      rw [List.append_nil] at hskip
      rw [Rx.piecesFrom, hword]
      exact congrArg _ hskip
    have hsub := scanText_sub (l := cashAliases.aliases) (wordPattern_ne ordered) ((cashMasker none).replace cashText) m
    have hrxs : cashAliases.aliases.flatMap (fragmentRxs foldText) = cashRxs := rfl
    rw [hrxs, hpieces] at hsub
    rw [mask, replace_cash, hnorm]
    refine Eq.trans hsub ?_
    rw [List.flatMap_singleton, Rx.Piece.out, String.ofList_toList, String.ofList_toList]

theorem cash_words : (["baltic  air", "Jane Smith", "A-B", "$cash", "balt\u0130c air"].all (fun m =>
    decide (normalize cashText m = m) && decide (nextWord cashRxs [] m.toList = some (m.toList, []))) = true) ∧
    candidateKeys cashText "baltic  air" = ["baltic air", "baltic air", "S:baltic air"] ∧
    candidateKeys cashText "Jane Smith" = ["jane smith", "jane smith", "S:Jane Smith"] ∧
    candidateKeys cashText "A-B" = ["a-b", "a.b", "S:A-B"] ∧ candidateKeys cashText "$cash" = ["cash", "cash", "S:cash"] ∧
    candidateKeys cashText "balt\u0130c air" =
      ["balti\u0307c air", "balti\u0307c air", "S:balt\u0130c air"] := by
  decide +kernel

theorem word_of_mem (hm : m ∈ ["baltic  air", "Jane Smith", "A-B", "$cash", "balt\u0130c air"]) :
    normalize cashText m = m ∧ nextWord cashRxs [] m.toList = some (m.toList, []) := by
  have hword := List.all_eq_true.mp cash_words.1 m hm
  rw [Bool.and_eq_true] at hword
  exact ⟨of_decide_eq_true hword.1, of_decide_eq_true hword.2⟩

theorem mask_of_mem {out : String} (hm : m ∈ ["baltic  air", "Jane Smith", "A-B", "$cash", "balt\u0130c air"])
    (h : (cashMasker none).replace cashText ⟨m, []⟩ = out) :
    (cashMasker (combined (tables cashText cashList).fragments)).mask cashText m = out :=
  (mask_word (word_of_mem hm).1 (word_of_mem hm).2).trans h

theorem replace_unowned {self : AliasMasker} {keys : List String} (hkeys : candidateKeys py m = keys)
    (howners : (keys.flatMap fun key => (self.owners.get? key).getD []).dedup = []) : self.replace py ⟨m, []⟩ = m := by
  rw [replace, hkeys, howners]

theorem replace_named : (cashMasker none).replace cashText ⟨"baltic  air", []⟩ = "IND_01" ∧
    (cashMasker none).replace cashText ⟨"Jane Smith", []⟩ = "EXEC_SMITH JA" := by
  have howners : (["baltic air", "baltic air", "S:baltic air"].flatMap fun key =>
        ((cashMasker none).owners.get? key).getD []).dedup = [⟨1, Samples.one_securityId⟩] ∧
      (["jane smith", "jane smith", "S:Jane Smith"].flatMap fun key =>
        ((cashMasker none).owners.get? key).getD []).dedup = [⟨1, Samples.one_securityId⟩] := by decide +kernel
  rw [replace_of_owner cash_words.2.1 howners.1, replace_of_owner cash_words.2.2.1 howners.2]
  decide +kernel

theorem cash_reads : (scanRules cashAliases.aliases).Reads (aliasesOf cashList) := by
  rw [aliasesOf_cash]
  exact scanText_reads cashAliases.aliases

/-- Two blanks in a name. -/
theorem matches_masked_cash :
    (cashMasker (combined (tables cashText cashList).fragments)).mask cashText "baltic  air" = "IND_01" ∧
    ∃ pieces, Rx.Scan ((scanRules cashAliases.aliases).WordOf (aliasesOf cashList)) []
        (normalize cashText "baltic  air").toList pieces ∧
      ∀ m, Rx.Piece.hit m ∈ pieces → ∀ a ∈ aliasesOf cashList, (scanRules cashAliases.aliases).SpellsAlike a (String.ofList m) →
        Undone cashText a (String.ofList m) →
        Masked cashText cashList cashTokens (cashMasker (combined (tables cashText cashList).fragments)) (String.ofList m) := by
  refine ⟨mask_of_mem List.mem_cons_self replace_named.1, ?_⟩
  · obtain ⟨pieces, hscan, -, hmasked⟩ := matches_masked (scanRules cashAliases.aliases) make_cash
      cash_reads "baltic  air"
    exact ⟨pieces, hscan, hmasked⟩

/-- A person is not replaced by the token of the owner, and three spellings that the pattern matches are left as they are. -/
theorem matches_left : ∃ masker, make cashText cashList cashTokens = .ok masker ∧ cashTokens.values = ["IND_01"] ∧
    masker.mask cashText "Jane Smith" = "EXEC_SMITH JA" ∧ masker.mask cashText "A-B" = "A-B" ∧
    masker.mask cashText "$cash" = "$cash" ∧ masker.mask cashText "balt\u0130c air" = "balt\u0130c air" ∧
    ∀ m ∈ ["Jane Smith", "A-B", "$cash", "balt\u0130c air"],
      ∃ a ∈ aliasesOf cashList, (scanRules cashAliases.aliases).Spells a m := by
  obtain ⟨-, -, -, hticker, hcash, hdotted⟩ := cash_words
  refine ⟨_, make_cash, rfl, mask_of_mem (by decide) replace_named.2, mask_of_mem (by decide) ?_, mask_of_mem (by decide) ?_,
    mask_of_mem (by decide) ?_, fun m hm => ?_⟩
  · exact replace_unowned hticker (by decide +kernel)
  · exact replace_unowned hcash (by decide +kernel)
  · exact replace_unowned hdotted (by decide +kernel)
  · obtain ⟨⟨a, ha, hspells⟩, -⟩ := (nextWord_at (word_of_mem (List.mem_cons_of_mem _ hm)).2).2.2
    rw [String.ofList_toList] at hspells
    exact ⟨a, ha, hspells⟩

end Sample

end AliasMasker
end AsymmetricCommittee
