import Mathlib.Data.List.Basic

/-! Texts as Python sees them. The regular expressions and the tables of Unicode are a parameter; a pattern is written
    as it is handed to them. -/

/-- A match: what was matched, and its groups. -/
structure RegexMatch where
  text : String
  groups : List (Option String)

/-- The library of a Python: `re`, `unicodedata`, `hashlib` and the methods of `str` that need Unicode. -/
structure PyText where
  /-- `unicodedata.normalize("NFKC", ·)`. -/
  nfkc : String → String
  casefold : String → String
  upper : String → String
  lower : String → String
  isDigit : Char → Bool
  /-- Whether a match of the pattern is somewhere in the text; the flag is `re.IGNORECASE`. -/
  search : String → Bool → String → Bool
  fullmatch : String → String → Option RegexMatch
  /-- Every match is replaced. -/
  sub : String → Bool → (RegexMatch → String) → String → String
  /-- `re.escape`. -/
  escape : String → String
  /-- The hexadecimal digest of the UTF-8 text. -/
  sha256 : String → String

namespace PyText

/-- The characters that `str.split` and `str.strip` take for blanks. -/
def isSpace (c : Char) : Bool :=
  let n := c.toNat
  (9 ≤ n && n ≤ 13) || (28 ≤ n && n ≤ 32) || n = 133 || n = 160 || n = 5760 || (8192 ≤ n && n ≤ 8202) ||
    n = 8232 || n = 8233 || n = 8239 || n = 8287 || n = 12288

/-- `text.split()`. -/
def words (text : String) : List String :=
  ((text.toList.splitOnP isSpace).filter fun word => !word.isEmpty).map String.ofList

/-- `" ".join(text.split())`. -/
def squeeze (text : String) : String := String.intercalate " " (words text)

/-- `part in text`. -/
def contains (text part : String) : Bool := text.toList.tails.any fun rest => part.toList.isPrefixOf rest

/-- `text[:n]`. -/
def slice (text : String) (n : Nat) : String := String.ofList (text.toList.take n)

/-- `text.zfill(width)` of digits. -/
def zfill (width : Nat) (digits : String) : String :=
  String.ofList (List.replicate (width - digits.length) '0' ++ digits.toList)

/-- `int(text)` of digits. -/
def decimal (digits : String) : Nat := digits.toList.foldl (fun n c => n * 10 + (c.toNat - 48)) 0

/-- `text.removeprefix(mark)` of one character. -/
def removePrefix (mark : Char) (text : String) : String :=
  match text.toList with
  | c :: rest => if c = mark then String.ofList rest else text
  | [] => text

/-- `text.replace(mark, "")` of one character. -/
def remove (mark : Char) (text : String) : String := String.ofList (text.toList.filter (· ≠ mark))

/-- The lines of a text. -/
def lines (text : String) : List (List Char) := text.toList.splitOn '\n'

end PyText
