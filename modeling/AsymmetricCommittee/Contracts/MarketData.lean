import AsymmetricCommittee.Contracts.Models
import AsymmetricCommittee.Lib.IsoTime
import Mathlib.Data.List.Sort
import Mathlib.Data.Prod.Lex
import Mathlib.Data.String.Basic

/-! Market-data contracts (`contracts/market_data.py`): sessions and coverage of the trading calendar, SIP
    trades and the reference prices resolved from them. Prices are rationals. SHA-256 is a parameter: a
    function from texts to digests. -/

namespace AsymmetricCommittee

/-- A calendar date, as days since 1970-01-01. -/
abbrev Date := Int

/-- The pattern `^[A-Z][A-Z0-9.\-]{0,9}$`. -/
def isTicker (s : String) : Bool :=
  match s.toList with
  | [] => false
  | c :: cs => ('A' ≤ c && c ≤ 'Z') && cs.length ≤ 9 &&
      cs.all fun c => ('A' ≤ c && c ≤ 'Z') || ('0' ≤ c && c ≤ '9') || c = '.' || c = '-'

abbrev Ticker := { s : String // isTicker s = true }

/-- `Version`: 1 to 128 characters. -/
abbrev Version := { s : String // 1 ≤ s.length ∧ s.length ≤ 128 }

/-- The pattern `^[0-9a-f]{64}$`. -/
def isSha256Hex (s : String) : Bool :=
  s.length = 64 && s.toList.all fun c => ('0' ≤ c && c ≤ '9') || ('a' ≤ c && c ≤ 'f')

abbrev Sha256Hex := { s : String // isSha256Hex s = true }

/-- One exchange trading session from the broker's official calendar. -/
structure MarketSession where
  sessionDate : Date
  opensAt : AwareDatetime
  closesAt : AwareDatetime
  ordered : opensAt.instant < closesAt.instant
  deriving DecidableEq

/-- One exchange session as the broker's calendar stated it at `availableAt`. -/
structure TradingSession where
  eventTime : AwareDatetime
  availableAt : AwareDatetime
  sourceVersion : Version
  sessionDate : Date
  openAt : AwareDatetime
  closeAt : AwareDatetime
  closes_after : openAt.instant < closeAt.instant
  event_is_open : eventTime.instant = openAt.instant
  deriving DecidableEq

namespace TradingSession

/-- The line `date|open|close|source_version` of a session, instants in UTC. -/
def calendarLine (s : TradingSession) : String :=
  String.intercalate "|" [IsoTime.isoDate s.sessionDate, IsoTime.isoUtcMicros s.openAt.instant,
    IsoTime.isoUtcMicros s.closeAt.instant, s.sourceVersion.val]

/-- The order of the lines: by date, then by version. -/
def calendarKey (s : TradingSession) : Date ×ₗ String := toLex (s.sessionDate, s.sourceVersion.val)

end TradingSession

/-- The canonical text of a set of session versions. -/
def calendarText (sessions : List TradingSession) : String :=
  String.intercalate "\n"
    ((sessions.insertionSort fun a b => a.calendarKey ≤ b.calendarKey).map TradingSession.calendarLine)

/-- `calendar_hash`: the digest of the canonical text. -/
def calendarHash (sha256 : String → Sha256Hex) (sessions : List TradingSession) : Sha256Hex :=
  sha256 (calendarText sessions)

/-- A date range whose sessions were fetched completely and successfully at `availableAt`. -/
structure CalendarCoverage where
  source : Label
  rangeStart : Date
  rangeEnd : Date
  availableAt : AwareDatetime
  sessionCount : Nat
  sessionsSha256 : Sha256Hex
  sourceVersion : Version
  ordered : rangeStart ≤ rangeEnd
  deriving DecidableEq

/-- The pattern `^[A-Z0-9]{1,32}$`. -/
def isSeries (s : String) : Bool :=
  1 ≤ s.length && s.length ≤ 32 && s.toList.all fun c => ('A' ≤ c && c ≤ 'Z') || ('0' ≤ c && c ≤ '9')

abbrev Series := { s : String // isSeries s = true }

/-- One DGS3MO observation in one ALFRED vintage: `vintageDate` is the date on which it became current. -/
structure TBillObservation (K : Type) where
  series : Series
  observationDate : Date
  yieldPct : K
  vintageDate : Date
  sourceVersion : Version
  published_after : observationDate ≤ vintageDate
  deriving DecidableEq

/-- Earliest and latest usable vintage, established from the fetched ALFRED vintage-date list. -/
structure TBillVintageCoverage where
  series : Series
  earliestVintage : Date
  latestVintage : Date
  vintageCount : Nat
  vintageDatesSha256 : Sha256Hex
  establishedAt : AwareDatetime
  sourceVersion : Version
  count_pos : 1 ≤ vintageCount
  ordered : earliestVintage ≤ latestVintage
  deriving DecidableEq

/-- A provider's condition code: one or two characters. -/
abbrev ConditionCode := { s : String // 1 ≤ s.length ∧ s.length ≤ 2 }

abbrev TradeId := { s : String // 1 ≤ s.length ∧ s.length ≤ 64 }

/-- One historical SIP trade as the provider returned it. -/
structure SipTrade where
  symbol : Ticker
  time : AwareDatetime
  price : Positive ℚ
  size : NonNegative ℚ
  tape : Tape
  conditions : List ConditionCode
  tradeId : Option TradeId
  deriving DecidableEq

/-- `_Observed`: a price with its source, or an unresolved reason. -/
structure Observed where
  status : RefStatus
  reason : Option RefReason
  price : Option (Positive ℚ)
  source : Option ReferenceSource
  tradeTime : Option AwareDatetime
  tradeTape : Option Tape
  tradeConditions : List ConditionCode
  tradeId : Option TradeId
  resolved_evidence : status = .resolved → price.isSome ∧ source.isSome ∧ reason = none
  unresolved_evidence : status = .unresolved → reason.isSome ∧ price = none ∧ source = none
  deriving DecidableEq

/-- Pure resolver output for one symbol at one timestamp. -/
structure ReferenceObservation extends Observed where
  symbolRef : Ticker
  refTime : AwareDatetime
  deriving DecidableEq

end AsymmetricCommittee
