import AsymmetricCommittee.Store.Aliases
import AsymmetricCommittee.Contracts.Samples

/-! Whose pseudonym a masked person gets. A match is read through the keys of what it matched: whoever has an alias with one
    of them owns it. One owner is named by its token, or by the pseudonym of one of its filers; an alias that two filers of
    one security share is kept for the first of them only. -/

namespace AsymmetricCommittee
namespace AliasMasker
open Partitioner Aliases

variable {py : PyText} {aliases : AliasList} {tokens : Dict SecurityId String} {masker : AliasMasker} {m : RegexMatch}
  {a : Alias} {s : SecurityAliases} {sid : SecurityId} {key matched : String}

/-! ### What the tables hold -/

variable (py) in
/-- The key that a match of the alias resolves through. -/
def keyOf (a : Alias) : String := (fragments py a).2.headD ""

theorem keys_fragments (a : Alias) : (fragments py a).2 = [keyOf py a] := by
  unfold keyOf fragments
  cases a.kind <;> rfl

variable (py) in
/-- What was matched may be the alias. -/
def Denotes (matched : String) (a : Alias) : Prop := keyOf py a ∈ candidateKeys py matched

/-- The aliases, each with its security. -/
def entries (aliases : AliasList) : List (SecurityAliases × Alias) :=
  aliases.securities.flatMap fun s => s.aliases.map fun a => (s, a)

theorem mem_entries {x : SecurityAliases × Alias} : x ∈ entries aliases ↔ x.1 ∈ aliases.securities ∧ x.2 ∈ x.1.aliases := by
  rw [entries, List.mem_flatMap]
  constructor
  · rintro ⟨s, hs, hx⟩
    obtain ⟨a, ha, rfl⟩ := List.mem_map.mp hx
    exact ⟨hs, ha⟩
  · rintro ⟨hs, ha⟩
    exact ⟨x.1, hs, List.mem_map.mpr ⟨x.2, ha, rfl⟩⟩

/-- One more security owns the key. -/
def addOwner (owners : Dict String (List SecurityId)) (key : String) (sid : SecurityId) : Dict String (List SecurityId) :=
  owners.set key (if sid ∈ (owners.get? key).getD [] then (owners.get? key).getD [] else (owners.get? key).getD [] ++ [sid])

theorem addAlias_owners (sid : SecurityId) (cik : Nat) (t : Tables) (a : Alias) :
    (addAlias py sid cik t a).owners = addOwner t.owners (keyOf py a) sid := by
  have hkeys : (fragments py a).2 = [keyOf py a] := keys_fragments a
  unfold addAlias
  generalize fragments py a = f at hkeys
  obtain ⟨frags, keys⟩ := f
  have hkeys : keys = [keyOf py a] := hkeys
  subst hkeys
  rfl

theorem addAlias_person (sid : SecurityId) (cik : Nat) (t : Tables) (a : Alias) : (addAlias py sid cik t a).person =
    match a.canonical with
    | some canonical => t.person.set (keyOf py a) (personToken py canonical.val cik)
    | none => t.person := by
  have hkeys : (fragments py a).2 = [keyOf py a] := keys_fragments a
  unfold addAlias
  generalize fragments py a = f at hkeys
  obtain ⟨frags, keys⟩ := f
  have hkeys : keys = [keyOf py a] := hkeys
  subst hkeys
  have hperson := a.canonical_of_person
  cases hcanonical : a.canonical with
  | none =>
    dsimp only [List.foldl_cons, List.foldl_nil]
    cases a.kind <;> rfl
  | some canonical =>
    rw [hcanonical] at hperson
    dsimp only [List.foldl_cons, List.foldl_nil]
    rw [hperson.mpr rfl]

theorem tables_eq : tables py aliases =
    (entries aliases).foldl (fun t x => addAlias py x.1.securityId (cikOf x.1) t x.2) ⟨Dict.empty, Dict.empty, Dict.empty⟩ := by
  rw [tables, entries, List.foldl_flatMap]
  simp only [List.foldl_map]

theorem mem_addOwner {owners : Dict String (List SecurityId)} {key' : String} {sid' : SecurityId} :
    sid ∈ ((addOwner owners key' sid').get? key).getD [] ↔ sid ∈ (owners.get? key).getD [] ∨ key' = key ∧ sid' = sid := by
  rw [addOwner, Dict.get?_set]
  by_cases hkey : key = key'
  · rw [if_pos hkey, Option.getD_some, hkey]
    split
    · next hmem =>
      refine ⟨.inl, fun h => ?_⟩
      rcases h with h | ⟨-, rfl⟩
      · exact h
      · exact hmem
    · rw [List.mem_append, List.mem_singleton, eq_comm (a := sid)]
      simp
  · rw [if_neg hkey]
    refine ⟨.inl, fun h => ?_⟩
    rcases h with h | ⟨rfl, -⟩
    · exact h
    · exact absurd rfl hkey

theorem mem_owners_foldl {l : List (SecurityAliases × Alias)} {t : Tables} :
    sid ∈ (((l.foldl (fun t x => addAlias py x.1.securityId (cikOf x.1) t x.2) t).owners).get? key).getD [] ↔
      sid ∈ (t.owners.get? key).getD [] ∨ ∃ x ∈ l, keyOf py x.2 = key ∧ x.1.securityId = sid := by
  induction l generalizing t with
  | nil => simp
  | cons x l ih =>
    rw [List.foldl_cons, ih, addAlias_owners, mem_addOwner, or_assoc, List.exists_mem_cons_iff]

/-- A security owns a key iff one of its aliases has it. -/
theorem mem_owners : sid ∈ ((tables py aliases).owners.get? key).getD [] ↔
    ∃ x ∈ entries aliases, keyOf py x.2 = key ∧ x.1.securityId = sid := by
  rw [tables_eq, mem_owners_foldl]
  simp [Dict.get?_empty]

/-- The pseudonyms of the person aliases, by key. -/
def pseudonyms (py : PyText) (l : List (SecurityAliases × Alias)) : List (String × String) :=
  l.filterMap fun x => x.2.canonical.map fun canonical => (keyOf py x.2, personToken py canonical.val (cikOf x.1))

theorem person_foldl {l : List (SecurityAliases × Alias)} {t : Tables} :
    (l.foldl (fun t x => addAlias py x.1.securityId (cikOf x.1) t x.2) t).person =
      (pseudonyms py l).foldl (fun d x => d.set x.1 x.2) t.person := by
  induction l generalizing t with
  | nil => rfl
  | cons x l ih =>
    rw [List.foldl_cons, ih, addAlias_person]
    simp only [pseudonyms, List.filterMap_cons]
    cases x.2.canonical <;> rfl

theorem mem_pseudonyms {token : String} : (key, token) ∈ pseudonyms py (entries aliases) ↔
    ∃ x ∈ entries aliases, ∃ canonical, x.2.canonical = some canonical ∧ keyOf py x.2 = key ∧
      personToken py canonical.val (cikOf x.1) = token := by
  rw [pseudonyms, List.mem_filterMap]
  refine exists_congr fun x => and_congr_right fun _ => ?_
  rw [Option.map_eq_some_iff]
  exact exists_congr fun canonical => and_congr_right fun _ => Prod.mk.injEq _ _ _ _ ▸ Iff.rfl

/-- The pseudonym of a key is that of a person alias with the key. -/
theorem of_person {token : String} (h : (tables py aliases).person.get? key = some token) : ∃ x ∈ entries aliases,
    ∃ canonical, x.2.canonical = some canonical ∧ keyOf py x.2 = key ∧ personToken py canonical.val (cikOf x.1) = token := by
  rw [tables_eq, person_foldl] at h
  rcases Dict.of_get?_foldl_set h with ⟨⟨key', token'⟩, hx, rfl, rfl⟩ | hempty
  · exact mem_pseudonyms.mp hx
  · cases hempty

theorem person_isSome {x : SecurityAliases × Alias} (hx : x ∈ entries aliases) (hperson : x.2.canonical.isSome) :
    ((tables py aliases).person.get? (keyOf py x.2)).isSome := by
  obtain ⟨canonical, hcanonical⟩ := Option.isSome_iff_exists.mp hperson
  rw [tables_eq, person_foldl]
  exact Dict.isSome_get?_foldl_set (.inl ⟨_, mem_pseudonyms.mpr ⟨x, hx, canonical, hcanonical, rfl, rfl⟩, rfl⟩)

/-! ### What a match is replaced by -/

theorem of_make (h : make py aliases tokens = .ok masker) :
    masker.owners = (tables py aliases).owners ∧ masker.person = (tables py aliases).person := by
  unfold make at h
  split_ifs at h
  cases h
  exact ⟨rfl, rfl⟩

variable (py aliases) in
/-- A security that has an alias that the match may be. -/
def Owns (matched : String) (sid : SecurityId) : Prop :=
  ∃ x ∈ entries aliases, Denotes py matched x.2 ∧ x.1.securityId = sid

/-- The owners of a match, each once. -/
theorem mem_candidates (h : make py aliases tokens = .ok masker) :
    sid ∈ ((candidateKeys py matched).flatMap fun key => (masker.owners.get? key).getD []).dedup ↔ Owns py aliases matched sid := by
  rw [(of_make h).1, List.mem_dedup, List.mem_flatMap]
  constructor
  · rintro ⟨key, hkey, hmem⟩
    obtain ⟨x, hx, rfl, hsid⟩ := mem_owners.mp hmem
    exact ⟨x, hx, hkey, hsid⟩
  · rintro ⟨x, hx, hkey, hsid⟩
    exact ⟨_, hkey, mem_owners.mpr ⟨x, hx, rfl, hsid⟩⟩

theorem replace_shared (h : make py aliases tokens = .ok masker) {sid' : SecurityId} (hne : sid ≠ sid')
    (hsid : Owns py aliases m.text sid) (hsid' : Owns py aliases m.text sid') : masker.replace py m = sharedToken := by
  have hmem := (mem_candidates h).mpr hsid
  have hmem' := (mem_candidates h).mpr hsid'
  rw [replace]
  generalize ((candidateKeys py m.text).flatMap fun key => (masker.owners.get? key).getD []).dedup = owners at hmem hmem'
  match owners with
  | [] => cases hmem
  | [owner] => exact absurd ((List.mem_singleton.mp hmem).trans (List.mem_singleton.mp hmem').symm) hne
  | _ :: _ :: _ => rfl

/-- A person of the one owner is replaced by the pseudonym of a person alias that the match may be. -/
theorem replace_person (h : make py aliases tokens = .ok masker) (hone : ∀ sid', Owns py aliases m.text sid' → sid' = sid)
    {x : SecurityAliases × Alias} (hx : x ∈ entries aliases) (hden : Denotes py m.text x.2) (hperson : x.2.canonical.isSome) :
    ∃ y ∈ entries aliases, ∃ canonical, y.2.canonical = some canonical ∧ Denotes py m.text y.2 ∧
      masker.replace py m = personToken py canonical.val (cikOf y.1) := by
  have howners : ((candidateKeys py m.text).flatMap fun key => (masker.owners.get? key).getD []).dedup = [sid] := by
    refine List.perm_singleton.mp ((List.perm_ext_iff_of_nodup (List.nodup_dedup _) (List.nodup_singleton _)).mpr fun sid' => ?_)
    have howns : Owns py aliases m.text x.1.securityId := ⟨x, hx, hden, rfl⟩
    rw [mem_candidates h, List.mem_singleton]
    exact ⟨hone sid', fun hsid' => hsid'.trans (hone _ howns).symm ▸ howns⟩
  have hfind : ((candidateKeys py m.text).findSome? fun key => masker.person.get? key).isSome := by
    rw [List.findSome?_isSome_iff]
    refine ⟨keyOf py x.2, hden, ?_⟩
    rw [(of_make h).2]
    exact person_isSome hx hperson
  obtain ⟨token, htoken⟩ := Option.isSome_iff_exists.mp hfind
  obtain ⟨key, hkey, hget⟩ := List.exists_of_findSome?_eq_some htoken
  rw [(of_make h).2] at hget
  obtain ⟨y, hy, canonical, hcanonical, rfl, rfl⟩ := of_person hget
  refine ⟨y, hy, canonical, hcanonical, hkey, ?_⟩
  rw [replace, howners]
  dsimp only
  rw [htoken]

/-! ### The forms of the filers -/

section Filers
variable {isAlpha : String → Bool} {names : List String} {filer text : String} {variants : List String}
  {st st' : List (AliasKind × String) × List Alias}

variable (py) in
/-- By which an alias is told from the others of its security. -/
def kindKey (a : Alias) : AliasKind × String := (a.kind, py.casefold a.text.val)

variable (py isAlpha) in
/-- The alias is a form of one of the names. -/
def FormOf (names : List String) (a : Alias) : Prop :=
  ∃ filer ∈ names, ∃ variants, nameVariants py isAlpha filer = .ok variants ∧ a.text.val ∈ variants ∧ a.kind = .person ∧
    ∃ canonical, a.canonical = some canonical ∧ canonical.val = strip filer

variable (py isAlpha) in
/-- While the forms are added: what is seen are the aliases so far, and what is added are forms of the names. -/
structure Adding (s : SecurityAliases) (names : List String) (st : List (AliasKind × String) × List Alias) : Prop where
  seen : st.1 = (s.aliases ++ st.2).map (kindKey py)
  forms : ∀ a ∈ st.2, FormOf py isAlpha names a

theorem aliasText_val {t : Text 256} (h : aliasText text = some t) : t.val = text := by
  unfold aliasText at h
  split at h
  · cases h
    rfl
  · cases h

theorem adding_addForm (hfiler : filer ∈ names) (hvariants : nameVariants py isAlpha filer = .ok variants)
    (htext : text ∈ variants) (hst : Adding py isAlpha s names st) (h : addForm py filer st text = .ok st') :
    Adding py isAlpha s names st' ∧ (.person, py.casefold text) ∈ st'.1 ∧
      ∀ x, (.person, py.casefold x) ∈ st.1 → (.person, py.casefold x) ∈ st'.1 := by
  unfold addForm at h
  split at h
  · next hseen =>
    cases h
    exact ⟨hst, hseen, fun _ hx => hx⟩
  · split at h
    · next form canonical hform hcanonical =>
      cases h
      have hval := aliasText_val hform
      refine ⟨⟨?_, List.forall_mem_append.mpr ⟨hst.forms, List.forall_mem_singleton.mpr ?_⟩⟩, ?_, fun x hx => ?_⟩
      · dsimp only
        rw [hst.seen, ← List.append_assoc]
        exact (@List.map_append _ _ (kindKey py) _ [personAlias form canonical]).symm
      · exact ⟨filer, hfiler, variants, hvariants, hval ▸ htext, rfl, canonical, rfl, aliasText_val hcanonical⟩
      · rw [hval]
        exact List.mem_append_right _ (List.mem_singleton_self _)
      · exact List.mem_append_left _ hx
    · cases h

theorem adding_addFiler (hfiler : filer ∈ names) (hst : Adding py isAlpha s names st)
    (h : addFiler py isAlpha st filer = .ok st') : Adding py isAlpha s names st' ∧
      (∀ variants, nameVariants py isAlpha filer = .ok variants → ∀ text ∈ variants, (.person, py.casefold text) ∈ st'.1) ∧
      ∀ x, (.person, py.casefold x) ∈ st.1 → (.person, py.casefold x) ∈ st'.1 := by
  obtain ⟨variants, hvariants, h⟩ := Except.bind_eq_ok.mp h
  obtain ⟨hadding, hdone, hkeep⟩ := Except.foldlM_establishes
    (fun text (st : List (AliasKind × String) × List Alias) => (AliasKind.person, py.casefold text) ∈ st.1)
    (fun text htext _ _ hst h => adding_addForm hfiler hvariants htext hst h) hst h
  refine ⟨hadding, fun variants' hvariants' => ?_, hkeep⟩
  rw [hvariants] at hvariants'
  cases hvariants'
  exact hdone

/-- The aliases of a security with its filers: its own and forms of the filers, and every form of a filer is there, if only
    as that of another filer that reads the same. -/
theorem addFilers_spec {s' : SecurityAliases} (h : addFilers py isAlpha s names = .ok s') :
    ∃ extra, s'.aliases = s.aliases ++ extra ∧ (∀ a ∈ extra, FormOf py isAlpha names a) ∧
      ∀ filer ∈ names, ∀ variants, nameVariants py isAlpha filer = .ok variants → ∀ text ∈ variants,
        ∃ a ∈ s'.aliases, a.kind = .person ∧ py.casefold a.text.val = py.casefold text := by
  obtain ⟨⟨seen, extra⟩, hfold, h⟩ := Except.bind_eq_ok.mp h
  cases h
  have hstart : Adding py isAlpha s names (s.aliases.map fun a => (a.kind, py.casefold a.text.val), []) :=
    ⟨by rw [List.append_nil]; rfl, nofun⟩
  obtain ⟨hadding, hdone, -⟩ := Except.foldlM_establishes
    (fun filer (st : List (AliasKind × String) × List Alias) => ∀ variants, nameVariants py isAlpha filer = .ok variants →
      ∀ text ∈ variants, (AliasKind.person, py.casefold text) ∈ st.1)
    (fun filer hfiler _ _ hst h => by
      obtain ⟨hadding, hdone, hkeep⟩ := adding_addFiler (List.mem_eraseDups.mp hfiler) hst h
      exact ⟨hadding, hdone, fun _ hx variants hvariants text htext => hkeep text (hx variants hvariants text htext)⟩)
    hstart hfold
  refine ⟨extra, rfl, hadding.forms, fun filer hfiler variants hvariants text htext => ?_⟩
  have hmem := hdone filer (List.mem_eraseDups.mpr hfiler) variants hvariants text htext
  rw [hadding.seen] at hmem
  obtain ⟨a, ha, heq⟩ := List.mem_map.mp hmem
  obtain ⟨hkind, hfold⟩ := Prod.mk.injEq _ _ _ _ ▸ heq
  exact ⟨a, ha, hkind, hfold⟩

end Filers

/-! ### The right name -/

section Names
variable (py : PyText) (isAlpha : String → Bool) (base : AliasList) (filers : Dict SecurityId (List String))

/-- The match may be a form of a filer of the security, or a person alias that the security has anyway. -/
def Names (matched : String) (s : SecurityAliases) (name : String) : Prop :=
  (∃ a ∈ s.aliases, Denotes py matched a ∧ ∃ canonical, a.canonical = some canonical ∧ canonical.val = name) ∨
  (name ∈ filersOf filers s ∧ ∃ variants, nameVariants py isAlpha name = .ok variants ∧
    ∃ form ∈ variants, py.casefold (canon py form) ∈ candidateKeys py matched)

/-- Something of the security may be what was matched. -/
def Owned (matched : String) (s : SecurityAliases) : Prop :=
  (∃ a ∈ s.aliases, Denotes py matched a) ∨ ∃ name, Names py isAlpha filers matched s name

/-- The same filer, however the name is written. -/
def SameFiler (name name' : String) : Prop := py.casefold (canon py name) = py.casefold (canon py name')

/-- A person of one filer of one security gets the pseudonym of that filer, and one that is shared gets the pseudonym of none
    of those who share it. -/
def RightName (masker : AliasMasker) (m : RegexMatch) : Prop :=
  ∀ s ∈ base.securities, ∀ name, Names py isAlpha filers m.text s name →
    ((∀ s' ∈ base.securities, Owned py isAlpha filers m.text s' → s'.securityId = s.securityId) →
      (∀ name', Names py isAlpha filers m.text s name' → SameFiler py name name') →
        masker.replace py m = personToken py name (cikOf s)) ∧
    ((∃ s' ∈ base.securities, Owned py isAlpha filers m.text s' ∧ s'.securityId ≠ s.securityId) ∨
      (∃ name', Names py isAlpha filers m.text s name' ∧ ¬SameFiler py name name') →
        masker.replace py m ≠ personToken py name (cikOf s))

/-- Two filers of the one security that owns the match. -/
def SharedWithin (matched : String) : Prop :=
  ∃ s ∈ base.securities, (∀ s' ∈ base.securities, Owned py isAlpha filers matched s' → s'.securityId = s.securityId) ∧
    ∃ name name', Names py isAlpha filers matched s name ∧ Names py isAlpha filers matched s name' ∧ ¬SameFiler py name name'

/-- The texts of the person aliases that a security can have. -/
def PersonText (s : SecurityAliases) (text : String) : Prop :=
  (∃ a ∈ s.aliases, a.kind = .person ∧ a.text.val = text) ∨
  ∃ filer ∈ filersOf filers s, ∃ variants, nameVariants py isAlpha filer = .ok variants ∧ text ∈ variants

/-- What is needed of Unicode: blanks at the ends of a filed name do not matter, and person texts of a security that are
    equal but for case are so in canonical form. -/
structure Folds : Prop where
  strip : ∀ s ∈ base.securities, ∀ filer ∈ filersOf filers s, canon py (strip filer) = canon py filer
  forms : ∀ s ∈ base.securities, ∀ text text', PersonText py isAlpha filers s text → PersonText py isAlpha filers s text' →
    py.casefold text = py.casefold text' → py.casefold (canon py text) = py.casefold (canon py text')

variable {py isAlpha base filers}

theorem personToken_congr {name name' : String} (h : SameFiler py name name') (cik : Int) :
    personToken py name cik = personToken py name' cik := by rw [personToken, personToken, h]

theorem sharedToken_ne_personToken (name : String) (cik : Int) : sharedToken ≠ personToken py name cik := by
  intro h
  have hchars := congrArg (fun text => text.toList[1]?) h
  simp only [personToken, String.toList_append] at hchars
  revert hchars
  exact nofun

theorem cikOf_eq {s s' : SecurityAliases} {extra : List Alias} (h : s'.aliases = s.aliases ++ extra) : cikOf s' = cikOf s := by
  obtain ⟨a, ha, hcik⟩ := s.kinds_given .cik (by decide)
  have hsome : (s.aliases.find? fun a => a.kind = .cik).isSome := List.find?_isSome.mpr ⟨a, ha, decide_eq_true hcik⟩
  rw [cikOf, cikOf, h, List.find?_append, Option.or_of_isSome hsome]

theorem keyOf_person {a : Alias} (h : a.kind = .person) : keyOf py a = py.casefold (canon py a.text.val) := by
  unfold keyOf fragments
  rw [h]
  rfl

/-- A security with the aliases of its filers. -/
structure WithFilers (py : PyText) (isAlpha : String → Bool) (filers : Dict SecurityId (List String)) (s s' : SecurityAliases) :
    Prop where
  id : s'.securityId = s.securityId
  cik : cikOf s' = cikOf s
  keeps : ∀ a ∈ s.aliases, a ∈ s'.aliases
  forms : ∀ a ∈ s'.aliases, a ∈ s.aliases ∨ FormOf py isAlpha (filersOf filers s) a
  present : ∀ filer ∈ filersOf filers s, ∀ variants, nameVariants py isAlpha filer = .ok variants → ∀ text ∈ variants,
    ∃ a ∈ s'.aliases, a.kind = .person ∧ py.casefold a.text.val = py.casefold text

theorem withFilers (h : addPeople py isAlpha base filers = .ok aliases) :
    List.Forall₂ (WithFilers py isAlpha filers) base.securities aliases.securities := by
  unfold addPeople at h
  split at h
  · cases h
  · next securities hsecurities =>
    cases h
    refine (Except.mapM_eq_ok.mp hsecurities).imp fun s s' hs => ?_
    obtain ⟨extra, haliases, hforms, hpresent⟩ := addFilers_spec hs
    refine ⟨addFilers_securityId py isAlpha hs, cikOf_eq haliases, fun a ha => ?_, fun a ha => ?_, hpresent⟩
    · rw [haliases]
      exact List.mem_append_left _ ha
    · rw [haliases] at ha
      exact (List.mem_append.mp ha).imp_right (hforms a)

/-- A person alias names a person, under the pseudonym that the filed name has. -/
theorem WithFilers.names {s' : SecurityAliases} (hs : WithFilers py isAlpha filers s s') (hfolds : Folds py isAlpha base filers)
    (hmem : s ∈ base.securities) (ha : a ∈ s'.aliases) (hden : Denotes py matched a) {canonical : Text 256} (hcanonical : a.canonical = some canonical) :
    ∃ name, Names py isAlpha filers matched s name ∧
      personToken py canonical.val (cikOf s') = personToken py name (cikOf s) := by
  rcases hs.forms a ha with hbase | ⟨filer, hfiler, variants, hvariants, htext, hkind, canonical', hcanonical', hstrip⟩
  · exact ⟨canonical.val, .inl ⟨a, hbase, hden, canonical, hcanonical, rfl⟩, by rw [hs.cik]⟩
  · rw [hcanonical] at hcanonical'
    cases hcanonical'
    refine ⟨filer, .inr ⟨hfiler, variants, hvariants, a.text.val, htext, keyOf_person hkind ▸ hden⟩, ?_⟩
    rw [hs.cik, hstrip]
    exact personToken_congr (congrArg _ (hfolds.strip s hmem filer hfiler)) _

/-- A person that the match may name has an alias that the match may be. -/
theorem WithFilers.alias {s' : SecurityAliases} (hs : WithFilers py isAlpha filers s s') (hfolds : Folds py isAlpha base filers)
    (hmem : s ∈ base.securities) {name : String} (h : Names py isAlpha filers matched s name) :
    ∃ a ∈ s'.aliases, Denotes py matched a ∧ a.canonical.isSome := by
  rcases h with ⟨a, ha, hden, canonical, hcanonical, -⟩ | ⟨hfiler, variants, hvariants, form, hform, hkey⟩
  · exact ⟨a, hs.keeps a ha, hden, Option.isSome_iff_exists.mpr ⟨canonical, hcanonical⟩⟩
  · obtain ⟨a, ha, hkind, hfold⟩ := hs.present name hfiler variants hvariants form hform
    refine ⟨a, ha, ?_, a.canonical_of_person.mp hkind⟩
    have htext : PersonText py isAlpha filers s a.text.val := by
      rcases hs.forms a ha with hbase | ⟨filer, hfiler, variants, hvariants, htext, -⟩
      · exact .inl ⟨a, hbase, hkind, rfl⟩
      · exact .inr ⟨filer, hfiler, variants, hvariants, htext⟩
    rw [Denotes, keyOf_person hkind, hfolds.forms s hmem _ _ htext (.inr ⟨name, hfiler, variants, hvariants, hform⟩) hfold]
    exact hkey

/-- The owners of a match are the securities of which something may be what was matched. -/
theorem owns_iff (h : addPeople py isAlpha base filers = .ok aliases) (hfolds : Folds py isAlpha base filers) :
    Owns py aliases matched sid ↔ ∃ s ∈ base.securities, Owned py isAlpha filers matched s ∧ s.securityId = sid := by
  have hall := withFilers h
  constructor
  · rintro ⟨x, hx, hden, rfl⟩
    obtain ⟨hx, ha⟩ := mem_entries.mp hx
    obtain ⟨s, hs, hwith⟩ := Forall₂.exists_of_mem_right hall hx
    refine ⟨s, hs, ?_, hwith.id.symm⟩
    rcases hwith.forms x.2 ha with hbase | ⟨filer, hfiler, variants, hvariants, htext, hkind, -⟩
    · exact .inl ⟨x.2, hbase, hden⟩
    · exact .inr ⟨filer, .inr ⟨hfiler, variants, hvariants, x.2.text.val, htext, keyOf_person hkind ▸ hden⟩⟩
  · rintro ⟨s, hs, howned, rfl⟩
    obtain ⟨s', hs', hwith⟩ := Forall₂.exists_of_mem_left hall hs
    rcases howned with ⟨a, ha, hden⟩ | ⟨name, hname⟩
    · exact ⟨(s', a), mem_entries.mpr ⟨hs', hwith.keeps a ha⟩, hden, hwith.id⟩
    · obtain ⟨a, ha, hden, -⟩ := hwith.alias hfolds hs hname
      exact ⟨(s', a), mem_entries.mpr ⟨hs', ha⟩, hden, hwith.id⟩

/-- With one owner, a person is replaced by the pseudonym of someone whom the match may name. -/
theorem replace_names (h : addPeople py isAlpha base filers = .ok aliases) (hfolds : Folds py isAlpha base filers)
    (hmake : make py aliases tokens = .ok masker) (hs : s ∈ base.securities)
    (hone : ∀ s' ∈ base.securities, Owned py isAlpha filers m.text s' → s'.securityId = s.securityId) {name : String}
    (hname : Names py isAlpha filers m.text s name) :
    ∃ name', Names py isAlpha filers m.text s name' ∧ masker.replace py m = personToken py name' (cikOf s) := by
  have hall := withFilers h
  obtain ⟨s', hs', hwith⟩ := Forall₂.exists_of_mem_left hall hs
  obtain ⟨a, ha, hden, hperson⟩ := hwith.alias hfolds hs hname
  have howner : ∀ sid, Owns py aliases m.text sid → sid = s.securityId := fun sid hsid => by
    obtain ⟨s₁, hs₁, howned, rfl⟩ := (owns_iff h hfolds).mp hsid
    exact hone s₁ hs₁ howned
  obtain ⟨y, hy, canonical, hcanonical, hdeny, hreplace⟩ :=
    replace_person hmake howner (mem_entries.mpr ⟨hs', ha⟩ : (s', a) ∈ entries aliases) hden hperson
  have hid := howner _ ⟨y, hy, hdeny, rfl⟩
  obtain ⟨hy, hay⟩ := mem_entries.mp hy
  have hsame : y.1 = s' := List.inj_on_of_nodup_map aliases.ids_unique hy hs' (hid.trans hwith.id.symm)
  rw [hsame] at hay hreplace
  obtain ⟨name', hname', htoken⟩ := hwith.names hfolds hs hay hdeny hcanonical
  exact ⟨name', hname', hreplace.trans htoken⟩

/-- Of two filers of the one security that owns the match, one is named. -/
theorem not_rightName (hfolds : Folds py isAlpha base filers) (h : addPeople py isAlpha base filers = .ok aliases)
    (hmake : make py aliases tokens = .ok masker) (hshared : SharedWithin py isAlpha base filers m.text) :
    ¬RightName py isAlpha base filers masker m := by
  intro hright
  obtain ⟨s, hs, hone, name, name', hname, hname', hne⟩ := hshared
  obtain ⟨named, hnamed, hreplace⟩ := replace_names h hfolds hmake hs hone hname
  refine (hright s hs named hnamed).2 (.inr ?_) hreplace
  by_cases hsame : SameFiler py named name
  · exact ⟨name', hname', fun hsame' => hne (hsame.symm.trans hsame')⟩
  · exact ⟨name, hname, hsame⟩

/-- A match gets the right name iff it is not shared by two filers of the one security that owns it. -/
theorem rightName_iff (hfolds : Folds py isAlpha base filers) (h : addPeople py isAlpha base filers = .ok aliases)
    (hmake : make py aliases tokens = .ok masker) (m : RegexMatch) :
    RightName py isAlpha base filers masker m ↔ ¬SharedWithin py isAlpha base filers m.text := by
  constructor
  · exact fun hright hshared => not_rightName hfolds h hmake hshared hright
  · intro hshared s hs name hname
    refine ⟨fun hone hall => ?_, fun hmany => ?_⟩
    · obtain ⟨named, hnamed, hreplace⟩ := replace_names h hfolds hmake hs hone hname
      rw [hreplace]
      exact personToken_congr (hall named hnamed).symm _
    · by_cases hone : ∀ s' ∈ base.securities, Owned py isAlpha filers m.text s' → s'.securityId = s.securityId
      · rcases hmany with ⟨s', hs', howned, hne⟩ | ⟨name', hname', hne⟩
        · exact absurd (hone s' hs' howned) hne
        · exact absurd ⟨s, hs, hone, name, name', hname, hname', hne⟩ hshared
      · obtain ⟨s', hs', howned, hne⟩ : ∃ s' ∈ base.securities, Owned py isAlpha filers m.text s' ∧ s'.securityId ≠ s.securityId := by
          simpa only [not_forall, exists_prop] using hone
        rw [replace_shared hmake hne ((owns_iff h hfolds).mpr ⟨s', hs', howned, rfl⟩)
          ((owns_iff h hfolds).mpr ⟨s, hs, .inr ⟨name, hname⟩, rfl⟩)]
        exact sharedToken_ne_personToken name _

end Names

/-! ### Two filers of one surname -/

def asciiLower (text : String) : String := text.map Char.toLower

/-- A library for ASCII texts, whose digests are the texts. -/
def asciiText : PyText where
  nfkc := id
  casefold := asciiLower
  upper := fun text => text.map Char.toUpper
  lower := asciiLower
  isDigit := Char.isDigit
  search := fun _ _ _ => false
  fullmatch := fun _ _ => none
  sub := fun _ _ _ text => text
  escape := id
  sha256 := id

def asciiAlpha (text : String) : Bool := text.toList.all Char.isAlpha

def nameAlias (text : Text 256) : Alias := ⟨text, .name, none, by decide, nofun, nofun⟩

def tickerAlias (text : Text 256) (h : isTicker text.val = true) : Alias :=
  ⟨text, .ticker, none, by decide, nofun, fun _ => h⟩

def cikAlias (text : Text 256) (h : ∀ c ∈ text.val.toList, '0' ≤ c ∧ c ≤ '9') : Alias :=
  ⟨text, .cik, none, by decide, fun _ => h, nofun⟩

def acmeAliases : SecurityAliases where
  securityId := ⟨1, Samples.one_securityId⟩
  aliases := [nameAlias ⟨"Acme Robotics", by decide⟩, tickerAlias ⟨"ACME", by decide⟩ (by decide),
    cikAlias ⟨"7", by decide⟩ (by simp)]
  kinds_given := by decide

def acme : AliasList := ⟨⟨0, 0⟩, [acmeAliases], List.nodup_singleton _⟩

def acmeTokens : Dict SecurityId String := ⟨[(⟨1, Samples.one_securityId⟩, "IND_01")], List.nodup_singleton _⟩

def filersOfAcme (names : List String) : Dict SecurityId (List String) := ⟨[(⟨1, Samples.one_securityId⟩, names)], List.nodup_singleton _⟩

theorem masker_of_any {filers : Dict SecurityId (List String)}
    (h : ((addPeople asciiText asciiAlpha acme filers).toOption.any fun _ => true) = true) :
    ∃ aliases masker, addPeople asciiText asciiAlpha acme filers = .ok aliases ∧ make asciiText aliases acmeTokens = .ok masker := by
  obtain ⟨aliases, haliases, -⟩ := Except.exists_ok_of_any h
  have hids : aliases.securities.any (fun s => (acmeTokens.get? s.securityId).isNone) = false := by
    refine List.any_eq_false.mpr fun s' hs' => ?_
    obtain ⟨s, hs, hwith⟩ := Forall₂.exists_of_mem_right (withFilers haliases) hs'
    rw [hwith.id, List.mem_singleton.mp hs]
    decide
  have hmake : make asciiText aliases acmeTokens = .ok ⟨acmeTokens, (tables asciiText aliases).owners,
      (tables asciiText aliases).person, combined (tables asciiText aliases).fragments⟩ := by
    rw [make, hids, if_neg Bool.false_ne_true, if_neg (by decide), if_neg (by decide)]
  exact ⟨aliases, _, haliases, hmake⟩

/-- Of names whose forms are these texts. -/
theorem folds_acme {names : List String} (texts : List String)
    (hstrip : ∀ filer ∈ names, canon asciiText (strip filer) = canon asciiText filer)
    (hforms : ∀ filer ∈ names, ∀ variants, nameVariants asciiText asciiAlpha filer = .ok variants → ∀ text ∈ variants, text ∈ texts)
    (hfold : ∀ text ∈ texts, ∀ text' ∈ texts, asciiText.casefold text = asciiText.casefold text' →
      asciiText.casefold (canon asciiText text) = asciiText.casefold (canon asciiText text')) :
    Folds asciiText asciiAlpha acme (filersOfAcme names) where
  strip s hs filer hfiler := by
    rw [List.mem_singleton.mp hs] at hfiler
    exact hstrip filer hfiler
  forms s hs text text' htext htext' heq := by
    have htexts : ∀ t, PersonText asciiText asciiAlpha (filersOfAcme names) s t → t ∈ texts := by
      intro t ht
      rw [List.mem_singleton.mp hs] at ht
      rcases ht with ⟨a, ha, hkind, -⟩ | ⟨filer, hfiler, variants, hvariants, ht⟩
      · have hnone : ∀ a ∈ acmeAliases.aliases, a.kind ≠ .person := by decide
        exact absurd hkind (hnone a ha)
      · exact hforms filer hfiler variants hvariants t ht
    exact hfold text (htexts text htext) text' (htexts text' htext') heq

def twoSmiths : Dict SecurityId (List String) := filersOfAcme ["SMITH JANE", "SMITH JOHN"]

/-- What the two names come to. -/
theorem smiths_evaluated :
    nameVariants asciiText asciiAlpha "SMITH JANE" = .ok ["SMITH JANE", "JANE SMITH", "SMITH"] ∧
    nameVariants asciiText asciiAlpha "SMITH JOHN" = .ok ["SMITH JOHN", "JOHN SMITH", "SMITH"] ∧
    candidateKeys asciiText "Smith" = ["smith", "smith", "S:Smith"] ∧ asciiText.casefold (canon asciiText "SMITH") = "smith" ∧
    ((addPeople asciiText asciiAlpha acme twoSmiths).toOption.any fun _ => true) = true := by
  decide +kernel

theorem forms_jane : nameVariants asciiText asciiAlpha "SMITH JANE" = .ok ["SMITH JANE", "JANE SMITH", "SMITH"] :=
  smiths_evaluated.1

theorem forms_john : nameVariants asciiText asciiAlpha "SMITH JOHN" = .ok ["SMITH JOHN", "JOHN SMITH", "SMITH"] :=
  smiths_evaluated.2.1

theorem folds_twoSmiths : Folds asciiText asciiAlpha acme twoSmiths := by
  refine folds_acme ["SMITH JANE", "JANE SMITH", "SMITH", "SMITH JOHN", "JOHN SMITH"] (by decide +kernel) ?_
    (by decide +kernel)
  refine List.forall_mem_cons.mpr ⟨fun variants h => ?_, List.forall_mem_singleton.mpr fun variants h => ?_⟩
  · rw [forms_jane] at h
    cases h
    decide
  · rw [forms_john] at h
    cases h
    decide

theorem filersOf_acme (names : List String) : filersOf (filersOfAcme names) acmeAliases = names := rfl

theorem names_smith {names variants : List String} {name : String} (hname : name ∈ names)
    (hvariants : nameVariants asciiText asciiAlpha name = .ok variants) (hsmith : "SMITH" ∈ variants) :
    Names asciiText asciiAlpha (filersOfAcme names) "Smith" acmeAliases name := by
  refine .inr ⟨by rwa [filersOf_acme], variants, hvariants, "SMITH", hsmith, ?_⟩
  obtain ⟨-, -, hkeys, hfold, -⟩ := smiths_evaluated
  rw [hkeys, hfold]
  exact List.mem_cons_self

theorem shared_smith : SharedWithin asciiText asciiAlpha acme twoSmiths "Smith" := by
  refine ⟨acmeAliases, List.mem_singleton_self _, fun s' hs' _ => by rw [List.mem_singleton.mp hs'], "SMITH JANE", "SMITH JOHN",
    names_smith (by decide) forms_jane (by decide), names_smith (by decide) forms_john (by decide), ?_⟩
  unfold SameFiler
  decide +kernel

/-- The surname is an alias of the first filer only, and whoever is meant by it gets one pseudonym. -/
theorem surname_of_both : ∃ aliases masker, addPeople asciiText asciiAlpha acme twoSmiths = .ok aliases ∧
    make asciiText aliases acmeTokens = .ok masker ∧ ¬RightName asciiText asciiAlpha acme twoSmiths masker ⟨"Smith", []⟩ := by
  obtain ⟨aliases, masker, haliases, hmasker⟩ := masker_of_any smiths_evaluated.2.2.2.2
  exact ⟨aliases, masker, haliases, hmasker, not_rightName folds_twoSmiths haliases hmasker shared_smith⟩

theorem surnames_named : ∃ masker, RightName asciiText asciiAlpha acme twoSmiths masker ⟨"Jane Smith", []⟩ ↔
    ¬SharedWithin asciiText asciiAlpha acme twoSmiths "Jane Smith" := by
  obtain ⟨aliases, masker, haliases, hmasker⟩ := masker_of_any smiths_evaluated.2.2.2.2
  exact ⟨masker, rightName_iff folds_twoSmiths haliases hmasker ⟨"Jane Smith", []⟩⟩

end AliasMasker
end AsymmetricCommittee
