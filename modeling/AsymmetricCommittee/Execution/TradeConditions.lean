import AsymmetricCommittee.Contracts.MarketData

/-! Which trades may set the consolidated last sale price (`execution/trade_conditions.py`): the CTS and
    UTP tables, the provider's code map, and how the conditions on one trade combine. -/

namespace AsymmetricCommittee
namespace TradeConditions

/-- Consolidated-last effect of one sale condition, as the specification words it. -/
inductive Effect where
  | yes
  | no
  | firstOnly
  | note3
  | tbd
  deriving DecidableEq, Repr

/-- CTS (tapes A, B). -/
def ctsLast : List (String × Effect) := [
  (" ", .yes), ("B", .no), ("C", .no), ("E", .yes), ("F", .yes), ("H", .no), ("I", .no), ("K", .yes),
  ("L", .note3), ("M", .no), ("N", .no), ("O", .yes), ("P", .firstOnly), ("Q", .no), ("R", .no),
  ("T", .no), ("U", .no), ("V", .no), ("X", .yes), ("Z", .firstOnly), ("4", .firstOnly), ("5", .yes),
  ("6", .yes), ("7", .no), ("8", .no), ("9", .yes)]

/-- UTP (tape C). -/
def utpLast : List (String × Effect) := [
  ("@", .yes), ("A", .yes), ("B", .yes), ("C", .no), ("D", .yes), ("E", .tbd), ("F", .yes),
  ("G", .firstOnly), ("H", .no), ("I", .no), ("K", .yes), ("L", .yes), ("M", .no), ("N", .no), ("O", .yes),
  ("P", .firstOnly), ("Q", .no), ("R", .no), ("S", .yes), ("T", .no), ("U", .no), ("V", .no), ("W", .no),
  ("X", .yes), ("Y", .yes), ("Z", .firstOnly), ("1", .yes), ("4", .firstOnly), ("5", .yes), ("6", .yes),
  ("7", .no), ("8", .tbd), ("9", .yes)]

def specTable : Tape → List (String × Effect)
  | .c => utpLast
  | _ => ctsLast

/-- One provider code for one tape and the specification code it stands for. -/
structure ProviderEntry where
  tape : Tape
  providerCode : String
  specCode : String
  expectedProviderName : String
  specName : String
  validated : Bool
  deriving DecidableEq, Repr

/-- `spec_code`, or the reason there is none. -/
structure Translation where
  specCode : Option String
  reason : Option RefReason
  deriving DecidableEq, Repr

/-- Provider code to specification code, from the entries it was built from. -/
structure ProviderCodeMap where
  entries : List ProviderEntry
  deriving DecidableEq, Repr

/-- The entry of a code: of several, the last one given. -/
def ProviderCodeMap.get? (self : ProviderCodeMap) (tape : Tape) (providerCode : String) : Option ProviderEntry :=
  self.entries.reverse.find? fun e => e.tape = tape ∧ e.providerCode = providerCode

/-- `translate`, honouring only validated entries. -/
def ProviderCodeMap.translate (self : ProviderCodeMap) (tape : Tape) (providerCode : String) : Translation :=
  match self.get? tape providerCode with
  | none => ⟨none, some .unknownCondition⟩
  | some entry => if entry.validated then ⟨some entry.specCode, none⟩ else ⟨none, some .providerMappingUnvalidated⟩

/-- The verdict on one trade before the same-day sequence is considered. -/
structure Eligibility where
  status : ConditionEligibility
  reason : Option RefReason
  note3 : Bool
  deriving DecidableEq, Repr

/-- `_worse`: an unvalidated mapping is reported in preference to a merely unknown code. -/
def worse (current new : Option RefReason) : Option RefReason :=
  if current = some .providerMappingUnvalidated ∨ new = none then current
  else if new = some .providerMappingUnvalidated then new
  else current.or new

/-- The loop of `evaluate_conditions` over the codes, with its three accumulators. -/
def combine (tape : Tape) (pmap : ProviderCodeMap) :
    List String → Option RefReason → Bool → Bool → Eligibility
  | [], unknown, conditional, note3 =>
    if unknown.isSome then ⟨.unknown, unknown, false⟩
    else if conditional then ⟨.conditional, none, note3⟩
    else ⟨.eligible, none, false⟩
  | code :: codes, unknown, conditional, note3 =>
    let tr := pmap.translate tape code
    match tr.specCode with
    | none => combine tape pmap codes (worse unknown tr.reason) conditional note3
    | some spec =>
      match (specTable tape).lookup spec with
      | none | some .tbd => combine tape pmap codes (worse unknown (some .unknownCondition)) conditional note3
      | some .no => ⟨.ineligible, none, false⟩
      | some .firstOnly => combine tape pmap codes unknown true note3
      | some .note3 => combine tape pmap codes unknown true true
      | some .yes => combine tape pmap codes unknown conditional note3

/-- Combine the conditions on one trade: all must qualify, any NO disqualifies. -/
def evaluateConditions (tape : Tape) (providerCodes : List String) (pmap : ProviderCodeMap) : Eligibility :=
  if providerCodes.isEmpty then ⟨.unknown, some .unknownCondition, false⟩
  else combine tape pmap providerCodes none false false

end TradeConditions
end AsymmetricCommittee
