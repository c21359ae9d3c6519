import AsymmetricCommittee.Lib.IsoTime
import Mathlib.Data.List.Sort
import Mathlib.Data.String.Basic

/-! JSON documents and their texts: keys sorted, no spaces, ASCII only. The text of a document ends where the
    document does, so that a text determines its document. -/

namespace AsymmetricCommittee

/-- A document whose floats are numbers of `N`. -/
inductive Json (N : Type) where
  | null
  | bool (b : Bool)
  | int (n : Int)
  | float (x : N)
  | str (s : String)
  | arr (items : List (Json N))
  | obj (items : List (String × Json N))

namespace Json
variable {N : Type}

/-! ### Strings -/

def hex4 (n : Nat) : List Char :=
  [Nat.digitChar (n / 4096 % 16), Nat.digitChar (n / 256 % 16), Nat.digitChar (n / 16 % 16), Nat.digitChar (n % 16)]

/-- A character within a string: a character beyond the first plane is written as two surrogates. -/
def escape (c : Char) : List Char :=
  let n := c.toNat
  if c = '"' then ['\\', '"']
  else if c = '\\' then ['\\', '\\']
  else if n = 10 then ['\\', 'n']
  else if n = 13 then ['\\', 'r']
  else if n = 9 then ['\\', 't']
  else if n = 12 then ['\\', 'f']
  else if n = 8 then ['\\', 'b']
  else if 32 ≤ n ∧ n ≤ 126 then [c]
  else if n < 0x10000 then '\\' :: 'u' :: hex4 n
  else '\\' :: 'u' :: (hex4 (0xd800 + (n - 0x10000) / 1024) ++ '\\' :: 'u' :: hex4 (0xdc00 + (n - 0x10000) % 1024))

def quote (s : String) : List Char := '"' :: (s.toList.flatMap escape ++ ['"'])

def hexDigit (c : Char) : Nat := if c.toNat < 58 then c.toNat - 48 else c.toNat - 87

def hexValue (a b c d : Char) : Nat := 4096 * hexDigit a + 256 * hexDigit b + 16 * hexDigit c + hexDigit d

/-- The character that a text within a string begins with, and the rest of the text. -/
def unescape : List Char → Option (Char × List Char)
  | [] => none
  | '\\' :: 'u' :: a :: b :: c :: d :: rest =>
    let n := hexValue a b c d
    if 0xd800 ≤ n ∧ n < 0xdc00 then
      match rest with
      | '\\' :: 'u' :: a :: b :: c :: d :: rest =>
        some (Char.ofNat (0x10000 + 1024 * (n - 0xd800) + (hexValue a b c d - 0xdc00)), rest)
      | _ => none
    else some (Char.ofNat n, rest)
  | '\\' :: 'n' :: rest => some (Char.ofNat 10, rest)
  | '\\' :: 'r' :: rest => some (Char.ofNat 13, rest)
  | '\\' :: 't' :: rest => some (Char.ofNat 9, rest)
  | '\\' :: 'f' :: rest => some (Char.ofNat 12, rest)
  | '\\' :: 'b' :: rest => some (Char.ofNat 8, rest)
  | '\\' :: c :: rest => some (c, rest)
  | c :: rest => some (c, rest)

theorem hexDigit_digitChar {d : Nat} (h : d < 16) : hexDigit (Nat.digitChar d) = d := by
  have hall : ∀ d < 16, hexDigit (Nat.digitChar d) = d := by decide
  exact hall d h

theorem hexValue_hex4 {n : Nat} (h : n < 0x10000) :
    hexValue (Nat.digitChar (n / 4096 % 16)) (Nat.digitChar (n / 256 % 16)) (Nat.digitChar (n / 16 % 16))
      (Nat.digitChar (n % 16)) = n := by
  rw [hexValue, hexDigit_digitChar (Nat.mod_lt _ (by simp)), hexDigit_digitChar (Nat.mod_lt _ (by simp)),
    hexDigit_digitChar (Nat.mod_lt _ (by simp)), hexDigit_digitChar (Nat.mod_lt _ (by simp))]
  omega

theorem toNat_not_surrogate (c : Char) : c.toNat < 0xd800 ∨ 0xe000 ≤ c.toNat ∧ c.toNat < 0x110000 := by
  rcases c.valid with h | h
  · exact Or.inl h
  · exact Or.inr ⟨h.1, h.2⟩

theorem unescape_escape (c : Char) (rest : List Char) : unescape (escape c ++ rest) = some (c, rest) := by
  have hofNat : ∀ n, c.toNat = n → some (Char.ofNat n, rest) = some (c, rest) := by
    rintro n rfl
    rw [Char.ofNat_toNat]
  have hc := toNat_not_surrogate c
  simp only [escape]
  split
  · next h => rw [h]; rfl
  split
  · next h => rw [h]; rfl
  split
  · next h => exact hofNat 10 h
  split
  · next h => exact hofNat 13 h
  split
  · next h => exact hofNat 9 h
  split
  · next h => exact hofNat 12 h
  split
  · next h => exact hofNat 8 h
  split
  · next hslash _ _ _ _ _ _ => simp [unescape, hslash]
  split
  · next h =>
    simp only [hex4, List.cons_append, List.nil_append, unescape, hexValue_hex4 h]
    rw [if_neg (by omega), Char.ofNat_toNat]
  · have hhigh : 0xd800 + (c.toNat - 0x10000) / 1024 < 0x10000 := by omega
    have hlow : 0xdc00 + (c.toNat - 0x10000) % 1024 < 0x10000 := by omega
    simp only [hex4, List.cons_append, List.nil_append, unescape, hexValue_hex4 hhigh, hexValue_hex4 hlow]
    rw [if_pos (by omega)]
    exact hofNat _ (by omega)

/-- No character is written with a bare quote. -/
theorem escape_ne_quote {c : Char} {rest rest' : List Char} : escape c ++ rest ≠ '"' :: rest' := by
  intro h
  have hc := unescape_escape c rest
  rw [h] at hc
  cases hc
  cases h

theorem escape_append_inj {c d : Char} {r r' : List Char} (h : escape c ++ r = escape d ++ r') : c = d ∧ r = r' := by
  have hc := unescape_escape c r
  rw [h, unescape_escape] at hc
  cases hc
  exact ⟨rfl, rfl⟩

theorem flatMap_escape_inj {cs ds r r' : List Char}
    (h : cs.flatMap escape ++ '"' :: r = ds.flatMap escape ++ '"' :: r') : cs = ds ∧ r = r' := by
  induction cs generalizing ds with
  | nil =>
    cases ds with
    | nil => exact ⟨rfl, (List.cons.inj h).2⟩
    | cons d ds =>
      rw [List.flatMap_cons, List.append_assoc] at h
      exact absurd h.symm escape_ne_quote
  | cons c cs ih =>
    cases ds with
    | nil =>
      rw [List.flatMap_cons, List.append_assoc] at h
      exact absurd h escape_ne_quote
    | cons d ds =>
      rw [List.flatMap_cons, List.flatMap_cons, List.append_assoc, List.append_assoc] at h
      obtain ⟨hc, hrest⟩ := escape_append_inj h
      obtain ⟨hcs, hr⟩ := ih hrest
      exact ⟨congrArg₂ List.cons hc hcs, hr⟩

theorem quote_append_inj {s t : String} {r r' : List Char} (h : quote s ++ r = quote t ++ r') : s = t ∧ r = r' := by
  simp only [quote, List.cons_append, List.append_assoc, List.cons.injEq, true_and, List.nil_append] at h
  obtain ⟨hchars, hrest⟩ := flatMap_escape_inj h
  exact ⟨String.toList_inj.mp hchars, hrest⟩

/-! ### Numbers -/

def isNumberChar (c : Char) : Bool := c.isDigit || c = '-' || c = '+' || c = '.' || c = 'e'

def intText (n : Int) : List Char := if 0 ≤ n then IsoTime.pad 1 n.toNat else '-' :: IsoTime.pad 1 (-n).toNat

/-- How floats are written: no two alike, and none as an integer. -/
structure FloatText (N : Type) where
  text : N → List Char
  injective : Function.Injective text
  chars : ∀ x, ∀ c ∈ text x, isNumberChar c = true
  marked : ∀ x, ∃ c ∈ text x, c = '.' ∨ c = 'e'

theorem intText_injective : Function.Injective intText := IsoTime.signed_injective 1

theorem mem_intText {n : Int} {c : Char} (hc : c ∈ intText n) : c.isDigit = true ∨ c = '-' := by
  have hpad : ∀ m, c ∈ IsoTime.pad 1 m → c.isDigit = true := by
    intro m hm
    obtain ⟨d, hd, rfl⟩ := IsoTime.pad_digit hm
    rw [Nat.isDigit_digitChar, decide_eq_true hd]
  unfold intText at hc
  split at hc
  · exact Or.inl (hpad _ hc)
  · rcases List.mem_cons.mp hc with rfl | hc
    · exact Or.inr rfl
    · exact Or.inl (hpad _ hc)

theorem intText_chars (n : Int) : ∀ c ∈ intText n, isNumberChar c = true := by
  intro c hc
  rcases mem_intText hc with h | h <;> simp [isNumberChar, h]

theorem intText_ne_nil (n : Int) : intText n ≠ [] := by
  have hpad : ∀ m, IsoTime.pad 1 m ≠ [] := by
    intro m h
    have hlength := congrArg List.length h
    simp only [IsoTime.pad, Nat.digitsAppend, List.length_map, List.length_reverse, List.length_append,
      List.length_replicate, List.length_nil] at hlength
    omega
  unfold intText
  split
  · exact hpad _
  · simp

theorem intText_ne_text (F : FloatText N) (n : Int) (x : N) : intText n ≠ F.text x := by
  intro h
  obtain ⟨c, hc, hmark⟩ := F.marked x
  rcases mem_intText (h ▸ hc) with hdigit | rfl
  · rcases hmark with rfl | rfl <;> simp at hdigit
  · rcases hmark with h | h <;> simp at h

theorem text_ne_nil (F : FloatText N) (x : N) : F.text x ≠ [] := by
  intro h
  obtain ⟨c, hc, -⟩ := F.marked x
  rw [h] at hc
  exact absurd hc List.not_mem_nil

/-- What follows a value in a document, or nothing. -/
def Delimited (r : List Char) : Prop := ∀ c ∈ r.head?, c = ',' ∨ c = ']' ∨ c = '}'

theorem Delimited.not_number {r : List Char} (h : Delimited r) : ∀ c ∈ r.head?, isNumberChar c = false := by
  intro c hc
  rcases h c hc with rfl | rfl | rfl <;> rfl

theorem append_inj_of_span {p : Char → Bool} {l l' r r' : List Char} (hl : ∀ c ∈ l, p c = true)
    (hl' : ∀ c ∈ l', p c = true) (hr : ∀ c ∈ r.head?, p c = false) (hr' : ∀ c ∈ r'.head?, p c = false)
    (h : l ++ r = l' ++ r') : l = l' ∧ r = r' := by
  have htake : ∀ {l r : List Char}, (∀ c ∈ l, p c = true) → (∀ c ∈ r.head?, p c = false) →
      (l ++ r).takeWhile p = l := by
    intro l r hl hr
    rw [List.takeWhile_append_of_pos hl]
    cases r with
    | nil => simp
    | cons c r => simp [hr c rfl]
  have hll : l = l' := by rw [← htake hl hr, h, htake hl' hr']
  rw [hll] at h
  exact ⟨hll, List.append_cancel_left h⟩

/-! ### Texts -/

section Render
variable (F : FloatText N)

mutual
def render : Json N → List Char
  | .null => "null".toList
  | .bool true => "true".toList
  | .bool false => "false".toList
  | .int n => intText n
  | .float x => F.text x
  | .str s => quote s
  | .arr [] => ['[', ']']
  | .arr (j :: js) => '[' :: (render j ++ renderItems js)
  | .obj [] => ['\x7b', '\x7d']
  | .obj (e :: es) => '\x7b' :: (quote e.1 ++ ':' :: (render e.2 ++ renderEntries es))

def renderItems : List (Json N) → List Char
  | [] => [']']
  | j :: js => ',' :: (render j ++ renderItems js)

def renderEntries : List (String × Json N) → List Char
  | [] => ['\x7d']
  | e :: es => ',' :: (quote e.1 ++ ':' :: (render e.2 ++ renderEntries es))
end

/-- What the text of a document may begin with. -/
def Leads : Json N → Char → Prop
  | .null, c => c = 'n'
  | .bool true, c => c = 't'
  | .bool false, c => c = 'f'
  | .int _, c => isNumberChar c = true
  | .float _, c => isNumberChar c = true
  | .str _, c => c = '"'
  | .arr _, c => c = '['
  | .obj _, c => c = '\x7b'

theorem exists_lead (j : Json N) (r : List Char) : ∃ c, Leads j c ∧ (render F j ++ r).head? = some c := by
  have hnumber : ∀ cs, cs ≠ [] → (∀ c ∈ cs, isNumberChar c = true) →
      ∃ c, isNumberChar c = true ∧ (cs ++ r).head? = some c := by
    intro cs hne hcs
    cases cs with
    | nil => exact absurd rfl hne
    | cons c cs => exact ⟨c, hcs c List.mem_cons_self, rfl⟩
  cases j with
  | null => exact ⟨'n', rfl, rfl⟩
  | bool b => cases b <;> exact ⟨_, rfl, rfl⟩
  | int n => exact hnumber (intText n) (intText_ne_nil n) (intText_chars n)
  | float x => exact hnumber (F.text x) (text_ne_nil F x) (F.chars x)
  | str s => exact ⟨'"', rfl, rfl⟩
  | arr js => cases js <;> exact ⟨'[', rfl, rfl⟩
  | obj es => cases es <;> exact ⟨_, rfl, rfl⟩

theorem exists_common_lead {j j' : Json N} {r r' : List Char} (h : render F j ++ r = render F j' ++ r') :
    ∃ c, Leads j c ∧ Leads j' c := by
  obtain ⟨c, hc, hhead⟩ := exists_lead F j r
  obtain ⟨c', hc', hhead'⟩ := exists_lead F j' r'
  rw [h, hhead'] at hhead
  cases hhead
  exact ⟨c, hc, hc'⟩

theorem not_leads_close (j : Json N) : ¬ Leads j ']' := by
  cases j with
  | bool b => cases b <;> simp [Leads]
  | int n => simp [Leads, isNumberChar]
  | float x => simp [Leads, isNumberChar]
  | _ => simp [Leads]

theorem render_ne_close {j : Json N} {r r' : List Char} : render F j ++ r ≠ ']' :: r' := by
  intro h
  obtain ⟨c, hc, hhead⟩ := exists_lead F j r
  rw [h] at hhead
  cases hhead
  exact not_leads_close j hc

theorem delimited_items (js : List (Json N)) (r : List Char) : Delimited (renderItems F js ++ r) := by
  cases js <;> simp [renderItems, Delimited]

theorem delimited_entries (es : List (String × Json N)) (r : List Char) : Delimited (renderEntries F es ++ r) := by
  cases es <;> simp [renderEntries, Delimited]

-- the induction is on the first document; the next character tells which kind the second one is of
mutual
theorem render_append_inj : ∀ (j j' : Json N) {r r' : List Char}, Delimited r → Delimited r' →
    render F j ++ r = render F j' ++ r' → j = j' ∧ r = r'
  | .null, j', r, r', _, _, h => by
    obtain ⟨c, hc, hc'⟩ := exists_common_lead F h
    cases hc
    cases j' with
    | null => exact ⟨rfl, List.append_cancel_left h⟩
    | bool b => cases b <;> simp [Leads] at hc'
    | _ => simp [Leads, isNumberChar] at hc'
  | .bool b, j', r, r', _, _, h => by
    obtain ⟨c, hc, hc'⟩ := exists_common_lead F h
    cases b <;> cases hc <;> cases j' with
    | bool b' =>
      cases b'
      all_goals first
        | exact ⟨rfl, List.append_cancel_left h⟩
        | simp [Leads] at hc'
    | _ => simp [Leads, isNumberChar] at hc'
  | .int n, j', r, r', hr, hr', h => by
    obtain ⟨c, hc, hc'⟩ := exists_common_lead F h
    simp only [Leads] at hc
    cases j' with
    | bool b => cases b <;> simp [Leads] at hc' <;> simp [isNumberChar, hc'] at hc
    | int n' =>
      obtain ⟨hn, hrest⟩ := append_inj_of_span (intText_chars n) (intText_chars n') hr.not_number hr'.not_number h
      exact ⟨congrArg Json.int (intText_injective hn), hrest⟩
    | float x =>
      exact absurd (append_inj_of_span (intText_chars n) (F.chars x) hr.not_number hr'.not_number h).1
        (intText_ne_text F n x)
    | _ =>
      simp only [Leads] at hc'
      simp [isNumberChar, hc'] at hc
  | .float x, j', r, r', hr, hr', h => by
    obtain ⟨c, hc, hc'⟩ := exists_common_lead F h
    simp only [Leads] at hc
    cases j' with
    | bool b => cases b <;> simp [Leads] at hc' <;> simp [isNumberChar, hc'] at hc
    | int n =>
      exact absurd (append_inj_of_span (F.chars x) (intText_chars n) hr.not_number hr'.not_number h).1.symm
        (intText_ne_text F n x)
    | float x' =>
      obtain ⟨hx, hrest⟩ := append_inj_of_span (F.chars x) (F.chars x') hr.not_number hr'.not_number h
      exact ⟨congrArg Json.float (F.injective hx), hrest⟩
    | _ =>
      simp only [Leads] at hc'
      simp [isNumberChar, hc'] at hc
  | .str s, j', r, r', _, _, h => by
    obtain ⟨c, hc, hc'⟩ := exists_common_lead F h
    cases hc
    cases j' with
    | bool b => cases b <;> simp [Leads] at hc'
    | str s' =>
      obtain ⟨hs, hrest⟩ := quote_append_inj h
      exact ⟨congrArg Json.str hs, hrest⟩
    | _ => simp [Leads, isNumberChar] at hc'
  | .arr js, j', r, r', _, _, h => by
    obtain ⟨c, hc, hc'⟩ := exists_common_lead F h
    cases hc
    cases j' with
    | bool b => cases b <;> simp [Leads] at hc'
    | arr js' =>
      cases js with
      | nil =>
        cases js' with
        | nil => exact ⟨rfl, List.append_cancel_left h⟩
        | cons j' js' =>
          simp only [render, List.cons_append, List.cons.injEq, true_and, List.append_assoc, List.nil_append] at h
          exact absurd h.symm (render_ne_close F)
      | cons j js =>
        cases js' with
        | nil =>
          simp only [render, List.cons_append, List.cons.injEq, true_and, List.append_assoc, List.nil_append] at h
          exact absurd h (render_ne_close F)
        | cons j' js' =>
          simp only [render, List.cons_append, List.cons.injEq, true_and, List.append_assoc] at h
          obtain ⟨hj, htail⟩ := render_append_inj j j' (delimited_items F js r) (delimited_items F js' r') h
          obtain ⟨hjs, hrest⟩ := renderItems_append_inj js js' htail
          exact ⟨by rw [hj, hjs], hrest⟩
    | _ => simp [Leads, isNumberChar] at hc'
  | .obj es, j', r, r', _, _, h => by
    obtain ⟨c, hc, hc'⟩ := exists_common_lead F h
    cases hc
    cases j' with
    | bool b => cases b <;> simp [Leads] at hc'
    | obj es' =>
      cases es with
      | nil =>
        cases es' with
        | nil => exact ⟨rfl, List.append_cancel_left h⟩
        | cons e' es' => simp [render, quote] at h
      | cons e es =>
        cases es' with
        | nil => simp [render, quote] at h
        | cons e' es' =>
          simp only [render, List.cons_append, List.cons.injEq, true_and, List.append_assoc] at h
          obtain ⟨hk, hvalue⟩ := quote_append_inj h
          obtain ⟨hv, htail⟩ := render_append_inj e.2 e'.2 (delimited_entries F es r) (delimited_entries F es' r')
            (List.cons.inj hvalue).2
          obtain ⟨hes, hrest⟩ := renderEntries_append_inj es es' htail
          exact ⟨by rw [Prod.ext hk hv, hes], hrest⟩
    | _ => simp [Leads, isNumberChar] at hc'

theorem renderItems_append_inj : ∀ (js js' : List (Json N)) {r r' : List Char},
    renderItems F js ++ r = renderItems F js' ++ r' → js = js' ∧ r = r'
  | [], [], _, _, h => ⟨rfl, List.append_cancel_left h⟩
  | [], j' :: js', _, _, h => by simp [renderItems] at h
  | j :: js, [], _, _, h => by simp [renderItems] at h
  | j :: js, j' :: js', r, r', h => by
    simp only [renderItems, List.cons_append, List.cons.injEq, true_and, List.append_assoc] at h
    obtain ⟨hj, htail⟩ := render_append_inj j j' (delimited_items F js r) (delimited_items F js' r') h
    obtain ⟨hjs, hrest⟩ := renderItems_append_inj js js' htail
    exact ⟨by rw [hj, hjs], hrest⟩

theorem renderEntries_append_inj : ∀ (es es' : List (String × Json N)) {r r' : List Char},
    renderEntries F es ++ r = renderEntries F es' ++ r' → es = es' ∧ r = r'
  | [], [], _, _, h => ⟨rfl, List.append_cancel_left h⟩
  | [], e' :: es', _, _, h => by simp [renderEntries] at h
  | e :: es, [], _, _, h => by simp [renderEntries] at h
  | e :: es, e' :: es', r, r', h => by
    simp only [renderEntries, List.cons_append, List.cons.injEq, true_and, List.append_assoc] at h
    obtain ⟨hk, hvalue⟩ := quote_append_inj h
    obtain ⟨hv, htail⟩ := render_append_inj e.2 e'.2 (delimited_entries F es r) (delimited_entries F es' r')
      (List.cons.inj hvalue).2
    obtain ⟨hes, hrest⟩ := renderEntries_append_inj es es' htail
    exact ⟨by rw [Prod.ext hk hv, hes], hrest⟩
end

theorem render_injective : Function.Injective (render F) := by
  intro j j' h
  have hnil : Delimited [] := by simp [Delimited]
  exact (render_append_inj F j j' hnil hnil (by rw [h])).1

end Render

/-! ### Objects -/

/-- A list of entries is determined by its keys and its entries in any order. -/
theorem eq_of_perm_of_keys {α β : Type} {es es' : List (α × β)} (hperm : es.Perm es')
    (hkeys : es.map Prod.fst = es'.map Prod.fst) (hnodup : (es.map Prod.fst).Nodup) : es = es' := by
  induction es generalizing es' with
  | nil => exact hperm.nil_eq
  | cons e es ih =>
    cases es' with
    | nil => simp at hkeys
    | cons e' es' =>
      simp only [List.map_cons, List.cons.injEq] at hkeys
      simp only [List.map_cons, List.nodup_cons] at hnodup
      have he : e = e' := by
        rcases List.mem_cons.mp (hperm.subset List.mem_cons_self) with he | he
        · exact he
        · exact absurd (hkeys.2 ▸ List.mem_map_of_mem he) hnodup.1
      rw [he] at hperm ⊢
      rw [ih hperm.cons_inv hkeys.2 hnodup.2]

/-- The value of a key. -/
def get? : Json N → String → Option (Json N)
  | .obj es, key => es.lookup key
  | _, _ => none

theorem lookup_eq_some {α β : Type} [DecidableEq α] {es : List (α × β)} (hnodup : (es.map Prod.fst).Nodup) {k : α}
    {v : β} : es.lookup k = some v ↔ (k, v) ∈ es := by
  induction es with
  | nil => simp
  | cons e es ih =>
    simp only [List.map_cons, List.nodup_cons] at hnodup
    rw [List.lookup_cons, List.mem_cons]
    split
    · next hk =>
      have hk : k = e.1 := by simpa using hk
      have hnot : (k, v) ∉ es := fun hmem => hnodup.1 (hk ▸ List.mem_map_of_mem hmem)
      simp only [Option.some.injEq, hnot, or_false]
      constructor
      · rintro rfl
        rw [hk]
      · rintro rfl
        rfl
    · next hk =>
      have hk : k ≠ e.1 := by simpa using hk
      rw [ih hnodup.2]
      simp only [iff_or_self]
      rintro rfl
      exact absurd rfl hk

theorem lookup_perm {α β : Type} [DecidableEq α] {es es' : List (α × β)} (hperm : es.Perm es')
    (hnodup : (es.map Prod.fst).Nodup) (k : α) : es.lookup k = es'.lookup k := by
  have hnodup' : (es'.map Prod.fst).Nodup := (hperm.map Prod.fst).nodup hnodup
  refine Option.ext fun v => ?_
  rw [lookup_eq_some hnodup, lookup_eq_some hnodup']
  exact hperm.mem_iff

section Sorted
variable {κ : Type} [LinearOrder κ] (key : String → κ)

mutual
/-- The document with the entries of every object in the order of their keys. -/
def sortBy : Json N → Json N
  | .arr js => .arr (sortItems js)
  | .obj es => .obj ((sortEntries es).insertionSort fun e e' => key e.1 ≤ key e'.1)
  | j => j

def sortItems : List (Json N) → List (Json N)
  | [] => []
  | j :: js => sortBy j :: sortItems js

def sortEntries : List (String × Json N) → List (String × Json N)
  | [] => []
  | e :: es => (e.1, sortBy e.2) :: sortEntries es
end

theorem sortItems_eq (js : List (Json N)) : sortItems key js = js.map (sortBy key) := by
  induction js with
  | nil => rfl
  | cons j js ih => rw [sortItems, ih, List.map_cons]

theorem sortEntries_eq (es : List (String × Json N)) :
    sortEntries key es = es.map fun e => (e.1, sortBy key e.2) := by
  induction es with
  | nil => rfl
  | cons e es ih => rw [sortEntries, ih, List.map_cons]

theorem sortBy_arr (js : List (Json N)) : sortBy key (.arr js) = .arr (js.map (sortBy key)) := by
  rw [sortBy, sortItems_eq]

theorem sorted_perm (es : List (String × Json N)) :
    ((sortEntries key es).insertionSort fun e e' => key e.1 ≤ key e'.1).Perm
      (es.map fun e => (e.1, sortBy key e.2)) := by
  rw [sortEntries_eq]
  exact List.perm_insertionSort _ _

/-- Objects with the same keys have the same sorted document when they have the same sorted values. -/
theorem sortBy_obj_inj {es es' : List (String × Json N)} (hkeys : es.map Prod.fst = es'.map Prod.fst)
    (hnodup : (es.map Prod.fst).Nodup) (h : sortBy key (.obj es) = sortBy key (.obj es')) :
    es.map (fun e => sortBy key e.2) = es'.map fun e => sortBy key e.2 := by
  simp only [sortBy, Json.obj.injEq] at h
  have hperm := (sorted_perm key es).symm.trans (h ▸ sorted_perm key es')
  have hmap := eq_of_perm_of_keys hperm (by simpa [Function.comp_def] using hkeys)
    (by simpa [Function.comp_def] using hnodup)
  simpa [Function.comp_def] using congrArg (List.map Prod.snd) hmap

theorem get?_sortBy {es : List (String × Json N)} (hnodup : (es.map Prod.fst).Nodup) (k : String) :
    (sortBy key (.obj es)).get? k = (es.lookup k).map (sortBy key) := by
  have hperm := sorted_perm key es
  have hnodup' : ((es.map fun e => (e.1, sortBy key e.2)).map Prod.fst).Nodup := by
    simpa [Function.comp_def] using hnodup
  rw [sortBy, get?, lookup_perm hperm ((hperm.map Prod.fst).nodup_iff.mpr hnodup')]
  induction es with
  | nil => rfl
  | cons e es ih =>
    simp only [List.map_cons, List.nodup_cons] at hnodup
    rw [List.map_cons, List.lookup_cons, List.lookup_cons]
    split
    · rfl
    · exact ih hnodup.2 (sorted_perm key es) (by simpa [Function.comp_def] using hnodup.2)

end Sorted
end Json
end AsymmetricCommittee
