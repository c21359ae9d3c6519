import AsymmetricCommittee.Contracts.MarketData
import AsymmetricCommittee.Lib.Dict

/-! Point-in-time data rows (`contracts/data.py`). Every fact row says when it happened, when it was knowable and
    which version of the source it is. -/

namespace AsymmetricCommittee

/-- The columns that every fact row has. -/
structure Fact where
  eventTime : AwareDatetime
  availableAt : AwareDatetime
  sourceVersion : Version
  deriving DecidableEq

/-- Of two rows the one that was knowable later, then the one with the greater version, counts. -/
def Fact.version (f : Fact) : Int ×ₗ String := toLex (f.availableAt.instant, f.sourceVersion.val)

/-! ### Enumerations -/

inductive InsiderRole where
  | officer
  | director
  | tenPercentOwner
  | other
  deriving DecidableEq, Repr

/-- Form 4 transaction codes; `p` is an open-market purchase and `s` a sale. -/
inductive InsiderTxnCode where
  | p | s | a | d | f | i | m | c | e | h | o | x | g | l | w | z | j | k | u | v
  deriving DecidableEq, Repr

def InsiderTxnCode.value : InsiderTxnCode → String
  | .p => "P" | .s => "S" | .a => "A" | .d => "D" | .f => "F" | .i => "I" | .m => "M" | .c => "C" | .e => "E" | .h => "H"
  | .o => "O" | .x => "X" | .g => "G" | .l => "L" | .w => "W" | .z => "Z" | .j => "J" | .k => "K" | .u => "U" | .v => "V"

inductive NewsProviderName where
  | alpaca
  | alphavantage
  deriving DecidableEq, Repr

inductive McapTier where
  | small
  | mid
  | large
  deriving DecidableEq, Repr

inductive PriceFeed where
  | iex
  | sip
  deriving DecidableEq, Repr

def PriceFeed.value : PriceFeed → String
  | .iex => "iex"
  | .sip => "sip"

/-- Data feeds; also names the partition that an evidence row came from. -/
inductive FeedName where
  | priceBars
  | fundamentals
  | insiderTrades
  | news
  | regime
  | features
  deriving DecidableEq, Repr

def FeedName.value : FeedName → String
  | .priceBars => "price_bars"
  | .fundamentals => "fundamentals"
  | .insiderTrades => "insider_trades"
  | .news => "news"
  | .regime => "regime"
  | .features => "features"

/-! ### Rows -/

/-- The pattern `^\d{10}-\d{2}-\d{6}$`; which characters are digits is left open. -/
def isAccession (s : String) : Bool :=
  s.length = 20 && s.toList[10]? = some '-' && s.toList[13]? = some '-'

abbrev Accession := { s : String // isAccession s = true }

/-- The pattern `^[a-z\-]+:[A-Za-z0-9_]+$`. -/
def isConcept (s : String) : Bool :=
  let parts := s.toList.span fun c => ('a' ≤ c && c ≤ 'z') || c = '-'
  !parts.1.isEmpty &&
    match parts.2 with
    | ':' :: name => !name.isEmpty &&
        name.all fun c => ('A' ≤ c && c ≤ 'Z') || ('a' ≤ c && c ≤ 'z') || ('0' ≤ c && c ≤ '9') || c = '_'
    | _ => false

abbrev Concept := { s : String // isConcept s = true }

/-- A text of 1 to `n` characters. -/
abbrev Text (n : Nat) := { s : String // 1 ≤ s.length ∧ s.length ≤ n }

/-- A text of at most `n` characters. -/
abbrev ShortText (n : Nat) := { s : String // s.length ≤ n }

section Rows
variable (K : Type) [Field K] [LinearOrder K]

structure PriceBar extends Fact where
  securityId : SecurityId
  «open» : Positive K
  high : Positive K
  low : Positive K
  close : Positive K
  volume : NonNegative K
  feed : PriceFeed
  within : low.val ≤ min open.val close.val ∧ max open.val close.val ≤ high.val
  version_is_feed : sourceVersion.val = feed.value

/-- One as-filed value; `sourceVersion` is the accession. -/
structure FundamentalFact extends Fact where
  securityId : SecurityId
  concept : Concept
  unit : Text 32
  periodStart : Option Date
  periodEnd : Date
  fiscalPeriod : Option (ShortText 8)
  form : Option (ShortText 16)
  value : K
  ordered : ∀ start ∈ periodStart, start ≤ periodEnd

/-- One non-derivative Form 4 line; `availableAt` is when the filing was accepted. -/
structure InsiderTxn extends Fact where
  securityId : SecurityId
  accession : Accession
  seq : Nat
  filer : Text 256
  role : InsiderRole
  officerTitle : Option (ShortText 256)
  txnDate : Date
  code : InsiderTxnCode
  acquired : Bool
  shares : NonNegative K
  price : Option (NonNegative K)
  postHoldings : Option (NonNegative K)
  is10b5One : Bool
  version_is_accession : sourceVersion.val = accession.val

/-- One revision of a news item; `eventTime` is the publish time. -/
structure NewsItem extends Fact where
  itemId : Text 128
  securityIds : List SecurityId
  publishedAt : AwareDatetime
  headline : Text 1000
  summary : ShortText 20000
  bodyHash : Sha256Hex
  source : NewsProviderName
  publisher : ShortText 256
  url : ShortText 2048
  securityIds_nonempty : securityIds ≠ []
  deriving DecidableEq

/-- What a feature can be: a truth value, a finite number, or anything else that JSON has. -/
inductive FeatureValue where
  | bool (b : Bool)
  | number (x : K)
  | other

structure FeatureRow extends Fact where
  securityId : SecurityId
  featureSetVersion : Version
  values : Dict String (FeatureValue K)

/-- One evaluated candidate in a monthly snapshot; `sourceVersion` is the hash of the configuration. -/
structure UniverseMember extends Fact where
  snapshotDate : Date
  securityId : SecurityId
  mcapUsd : Option (NonNegative K)
  mcapTier : Option McapTier
  advUsd : Option (NonNegative K)
  price : Option (NonNegative K)
  score : Option K
  rank : Option { n : Int // 1 ≤ n }
  included : Bool
  reason : ShortText 64
  deriving DecidableEq

end Rows

/-! ### Aliases -/

/-- Where an alias came from. -/
inductive AliasKind where
  | name
  | ticker
  | cik
  | brand
  | person
  deriving DecidableEq, Repr

/-- One string that is removed from text for the agents; `canonical` is the filed name of a person. -/
structure Alias where
  text : Text 256
  kind : AliasKind
  canonical : Option (Text 256)
  canonical_of_person : kind = .person ↔ canonical.isSome
  cik_decimal : kind = .cik → ∀ c ∈ text.val.toList, '0' ≤ c ∧ c ≤ '9'
  ticker_valid : kind = .ticker → isTicker text.val = true

/-- Every alias of one security. -/
structure SecurityAliases where
  securityId : SecurityId
  aliases : List Alias
  kinds_given : ∀ kind ∈ [AliasKind.name, .ticker, .cik], ∃ a ∈ aliases, a.kind = kind

/-- The aliases of the securities listed at a time. -/
structure AliasList where
  asOf : AwareDatetime
  securities : List SecurityAliases
  ids_unique : (securities.map (·.securityId)).Nodup

end AsymmetricCommittee
