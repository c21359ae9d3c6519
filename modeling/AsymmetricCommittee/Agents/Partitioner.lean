import AsymmetricCommittee.Contracts.Data
import AsymmetricCommittee.Lib.PyText

/-! The anonymizer (`agents/partitioner.py`): removes identity strings from text for the agents. -/

namespace AsymmetricCommittee

/-- `SHARED_TOKEN`: stands for an alias of several securities. -/
def sharedToken : String := "ENTITY_00"

/-- Why a masker is refused. -/
inductive MaskerError where
  | tokenMissing
  | tokenInvalid
  | tokenReserved
  deriving DecidableEq, Repr

namespace Partitioner
variable (py : PyText)

/-- `_normalize`: NFKC, with curly apostrophes folded. -/
def normalize (text : String) : String :=
  (py.nfkc text).map fun c => if c = '\u2019' || c = '\u2018' || c = '\u02bc' then '\'' else c

/-- `_canon`. -/
def canon (text : String) : String := PyText.squeeze (normalize py text)

def personTokenHex : Nat := 8

/-- `person_token`: a pseudonym of a person within a company. -/
def personToken (canonicalName : String) (cik : Int) : String :=
  let digest := py.sha256 (py.casefold (canon py canonicalName) ++ "||" ++ toString cik)
  "EXEC_" ++ py.upper (PyText.slice digest personTokenHex)

/-- `_words`. -/
def wordsPattern (text : String) : String :=
  String.intercalate r"\s+" ((text.toList.splitOn ' ').map fun word => py.escape (String.ofList word))

def tickerSep (c : Char) : Bool := c = '.' || c = '-' || c = '/'

/-- Its separators as dots. -/
def dotted (text : String) : String := text.map fun c => if tickerSep c then '.' else c

def shortTicker : Nat := 2

/-- `_fragments`: regex fragments, and the keys that a match of them resolves through. -/
def fragments (a : Alias) : List String × List String :=
  let canon := canon py a.text.val
  match a.kind with
  | .name | .brand | .person =>
    let forms := if py.casefold canon = canon then [canon] else [canon, py.casefold canon]
    (["(?i:" ++ String.intercalate "|" (forms.map (wordsPattern py)) ++ ")"], [py.casefold canon])
  | .ticker =>
    let parts := (canon.toList.splitOnP tickerSep).map String.ofList
    let body := String.intercalate r"[.\-/]" (parts.map py.escape)
    let short := decide ((py.sub r"\W" false (fun _ => "") canon).length ≤ shortTicker)
    let key := if short then "S:" ++ canon else dotted (py.casefold canon)
    ([r"\$?(?" ++ (if short then "-i" else "i") ++ ":" ++ body ++ ")"], [key])
  | .cik =>
    let digits := toString (PyText.decimal canon)
    ([r"(?i:cik(?:[\s:#=\-]|no\.?)*)0*" ++ digits, py.escape (PyText.zfill 10 digits)], ["cik:" ++ digits])

def cikPattern : String := r"(?:cik(?:[\s:#=\-]|no\.?)*)?0*(\d+)"

/-- `_candidate_keys`. -/
def candidateKeys (matched : String) : List String :=
  let canon := PyText.removePrefix '$' (canon py matched)
  let folded := py.casefold canon
  [folded, dotted folded, "S:" ++ canon] ++
    match (py.fullmatch cikPattern folded).bind fun m => m.groups[0]?.join with
    | none => []
    | some digits => ["cik:" ++ digits]

end Partitioner

open Partitioner

/-- Replaces every alias in a text with its security's token: who owns each key, the pseudonyms of persons, and the
    pattern, if there is any alias. -/
structure AliasMasker where
  tokens : Dict SecurityId String
  owners : Dict String (List SecurityId)
  person : Dict String String
  pattern : Option String

namespace AliasMasker
variable (py : PyText)

/-- What is known of the aliases seen so far. -/
structure Tables where
  owners : Dict String (List SecurityId)
  person : Dict String String
  fragments : Dict String Nat

/-- One alias of a security. -/
def addAlias (securityId : SecurityId) (cik : Nat) (t : Tables) (a : Alias) : Tables :=
  let (frags, keys) := Partitioner.fragments py a
  let addKey (t : Tables) (key : String) : Tables :=
    let known := (t.owners.get? key).getD []
    { t with
      owners := t.owners.set key (if securityId ∈ known then known else known ++ [securityId])
      person := match a.kind, a.canonical with
        | .person, some canonical => t.person.set key (personToken py canonical.val cik)
        | _, _ => t.person }
  let t := keys.foldl addKey t
  { t with
    fragments := frags.foldl (fun fragments frag =>
      fragments.set frag (max ((fragments.get? frag).getD 0) (canon py a.text.val).length)) t.fragments }

/-- The CIK of a security. -/
def cikOf (s : SecurityAliases) : Nat :=
  match s.aliases.find? fun a => a.kind = .cik with
  | none => 0
  | some a => PyText.decimal a.text.val

def tables (aliases : AliasList) : Tables :=
  aliases.securities.foldl (fun t s => s.aliases.foldl (addAlias py s.securityId (cikOf s)) t)
    ⟨Dict.empty, Dict.empty, Dict.empty⟩

/-- The combined pattern, the longest alias first. -/
def combined (fragments : Dict String Nat) : Option String :=
  let ordered := (fragments.sort fun a b => decide (b.2 < a.2 ∨ (a.2 = b.2 ∧ a.1 ≤ b.1))).keys
  if ordered = [] then none else some (r"(?<!\w)(?:" ++ String.intercalate "|" ordered ++ r")(?!\w)")

/-- `__init__`. -/
def make (aliases : AliasList) (tokens : Dict SecurityId String) : Except MaskerError AliasMasker :=
  if aliases.securities.any fun s => (tokens.get? s.securityId).isNone then .error .tokenMissing
  else if tokens.values.any fun token => !isEntityToken token then .error .tokenInvalid
  else if sharedToken ∈ tokens.values then .error .tokenReserved
  else
    let t := tables py aliases
    .ok ⟨tokens, t.owners, t.person, combined t.fragments⟩

/-- `_replace`. -/
def replace (self : AliasMasker) (m : RegexMatch) : String :=
  let keys := candidateKeys py m.text
  let owners := (keys.flatMap fun key => (self.owners.get? key).getD []).dedup
  match owners with
  | [] => m.text
  | [owner] =>
    match keys.findSome? fun key => self.person.get? key with
    | some token => token
    | none => (self.tokens.get? owner).getD ""
  | _ => sharedToken

def mask (self : AliasMasker) (text : String) : String :=
  let text := normalize py text
  match self.pattern with
  | none => text
  | some pattern => py.sub pattern false (self.replace py) text

end AliasMasker
end AsymmetricCommittee
