import AsymmetricCommittee.Agents.Partitions

/-! Feature construction (`features/builder.py`): the fundamental and insider features of a security, and the sector
    percentiles of the fundamental ones. -/

namespace AsymmetricCommittee
namespace Builder
open Renderer (day fundamentalFeatures)

section Builder
variable {K : Type} [Field K] [LinearOrder K]

/-! ### Fundamentals -/

/-- `CONCEPTS`, of the series that the features read: of a series' concepts the first with any fact is used. -/
def concepts : String → List String
  | "cash" => ["us-gaap:CashAndCashEquivalentsAtCarryingValue"]
  | "debt" => ["us-gaap:LongTermDebtAndFinanceLeaseObligationsCurrent", "us-gaap:LongTermDebtCurrent"]
  | "long_debt" => ["us-gaap:LongTermDebtAndFinanceLeaseObligationsNoncurrent", "us-gaap:LongTermDebtNoncurrent"]
  | "capex" => ["us-gaap:PaymentsToAcquirePropertyPlantAndEquipment"]
  | "da" => ["us-gaap:DepreciationDepletionAndAmortization"]
  | name => Partitions.concepts name

/-- `_safe_div`. -/
def safeDiv (a b : Option K) : Option K := Partitions.ratio a b

def seriesKey (f : FundamentalFact K) : Date ×ₗ Int := toLex (f.periodEnd, f.availableAt.instant)

/-- `_series`: the sort is stable. -/
def series (facts : List (FundamentalFact K)) (name : String) : List (FundamentalFact K) :=
  match ((concepts name).map fun concept => facts.filter fun f => f.concept.val = concept).find? (· ≠ []) with
  | none => []
  | some found => found.insertionSort fun a b => seriesKey a ≤ seriesKey b

/-- `rows[-n].value`, if there are as many rows. -/
def back (rows : List (FundamentalFact K)) (n : Nat) : Option K := (rows.reverse[n - 1]?).map (·.value)

/-- `_latest`. -/
def latest (facts : List (FundamentalFact K)) (name : String) : Option K := back (series facts name) 1

/-- `rows[-n:]`. -/
def lastRows (rows : List (FundamentalFact K)) (n : Nat) : List (FundamentalFact K) := rows.drop (rows.length - n)

/-- The gross margins of the last five rows, those that can be divided. -/
def grossMargins (facts : List (FundamentalFact K)) : List K :=
  ((lastRows (series facts "gross_profit") 5).zip (lastRows (series facts "revenue") 5)).filterMap fun rows =>
    safeDiv (some rows.1.value) (some rows.2.value)

/-- `fundamental_features`; `cbrt` is `** (1 / 3)`. -/
def fundamentalFeaturesOf (cbrt : K → K) (facts : List (FundamentalFact K)) (marketCap : Option K) :
    List (String × Option K) :=
  let revenue := series facts "revenue"
  let shares := series facts "shares"
  let opIncome := latest facts "operating_income"
  let cash := (latest facts "cash").getD 0
  let debt := (latest facts "debt").getD 0 + (latest facts "long_debt").getD 0
  let enterpriseValue := marketCap.map fun cap => cap + debt - cash
  let latestRevenue := back revenue 1
  let cfo := latest facts "cash_flow"
  let fcf := cfo.bind fun cfo => (latest facts "capex").map fun capex => cfo - capex
  let ebitda := opIncome.map fun op => op + (latest facts "da").getD 0
  let margins := grossMargins facts
  let yoy := (back revenue 5).bind fun base => safeDiv latestRevenue (some base)
  let cagr := (back revenue 13).bind fun base => safeDiv latestRevenue (some base)
  let accruals := (latest facts "net_income").bind fun net => cfo.map fun cfo => net - cfo
  [("ev_sales", safeDiv enterpriseValue latestRevenue), ("ev_ebit", safeDiv enterpriseValue opIncome),
    ("fcf_yield", safeDiv fcf marketCap),
    ("gross_margin_trend", if 2 ≤ margins.length then
      margins.getLast?.bind fun last => margins.head?.map fun first => last - first else none),
    ("revenue_growth_yoy", yoy.map (· - 1)),
    ("revenue_growth_3y_cagr", (cagr.filter (0 ≤ ·)).map fun x => cbrt x - 1),
    ("net_debt_ebitda", safeDiv (some (debt - cash)) ebitda),
    ("share_count_change", ((back shares 5).bind fun base => safeDiv (back shares 1) (some base)).map (· - 1)),
    ("accruals_ratio", safeDiv accruals (latest facts "assets"))]

/-! ### Insiders -/

/-- The open-market purchases outside a plan that were filed in the ninety days before `asOf`. -/
def windowBuys (rows : List (InsiderTxn K)) (asOf : AwareDatetime) : List (InsiderTxn K) :=
  rows.filter fun r => asOf.instant - 90 * day < r.availableAt.instant && r.code = .p && r.acquired && !r.is10b5One

/-- Whether a purchase is by the chief executive or financial officer. -/
def isChief (py : PyText) (r : InsiderTxn K) : Bool :=
  r.role = .officer &&
    match r.officerTitle with
    | none => false
    | some title => title.val ≠ "" && ["CEO", "CFO", "CHIEF EXECUTIVE", "CHIEF FINANCIAL"].any fun x =>
        PyText.contains (py.upper title.val) x

/-- The dollars of a purchase; a price that is not reported counts as zero. -/
def dollars (r : InsiderTxn K) : K := r.shares.val * (r.price.map (·.val)).getD 0

structure InsiderFeatures (K : Type) where
  netOpenMarketBuyUsd : K
  distinctBuyers : Nat
  ceoCfoBuyFlag : Nat

/-- What the features say of purchases. -/
def featuresOf (py : PyText) (buys : List (InsiderTxn K)) : InsiderFeatures K where
  netOpenMarketBuyUsd := (buys.map dollars).sum
  distinctBuyers := (buys.map (·.filer.val)).dedup.length
  ceoCfoBuyFlag := if buys.any (isChief py) then 1 else 0

/-- `insider_features`. -/
def insiderFeatures (py : PyText) (rows : List (InsiderTxn K)) (asOf : AwareDatetime) : InsiderFeatures K :=
  featuresOf py (windowBuys rows asOf)

/-! ### Sector percentiles -/

variable (fl : PyFloat K)

/-- A value that takes part: a finite number, or a truth value as one. -/
def finiteValue (row : Dict String (FeatureValue K)) (name : String) : Option K :=
  let value : Option K :=
    match row.get? name with
    | some (.bool b) => some (if b then 1 else 0)
    | some (.number x) => some x
    | some .other => none
    | none => none
  value.filter fl.isFinite

/-- `by_sector`: none where a name with a value has no sector. -/
def bySector (values : Dict SecurityId (Dict String (FeatureValue K))) (sectors : Dict SecurityId String) (name : String) :
    Option (Dict String (List (SecurityId × K))) :=
  values.entries.foldlM (fun groups kv =>
    match finiteValue fl kv.2 name with
    | none => some groups
    | some v => (sectors.get? kv.1).map fun sector => groups.set sector ((groups.get? sector).getD [] ++ [(kv.1, v)]))
    Dict.empty

def rankKey (item : SecurityId × K) : K ×ₗ SecurityId := toLex (item.2, item.1)

/-- The percentiles of one sector: the position by value and then by security, over one less than the size. -/
def ranks (group : List (SecurityId × K)) : List (SecurityId × K) :=
  let ordered := group.insertionSort fun a b => rankKey a ≤ rankKey b
  let denominator := max (ordered.length - 1) 1
  ordered.zipIdx.map fun item => (item.1.1, (item.2 : K) / denominator)

def percentileName (name : String) : String := name ++ "_sector_percentile"

/-- The column of one feature; a name that takes no part has none. -/
def addPercentile (values : Dict SecurityId (Dict String (FeatureValue K))) (sectors : Dict SecurityId String)
    (out : Dict SecurityId (Dict String (FeatureValue K))) (name : String) :
    Option (Dict SecurityId (Dict String (FeatureValue K))) :=
  (bySector fl values sectors name).map fun groups =>
    let percentiles : Dict SecurityId K :=
      groups.values.foldl (fun d group => (ranks group).foldl (fun d item => d.set item.1 item.2) d) Dict.empty
    out.map fun sid row => row.set (percentileName name) ((percentiles.get? sid).elim .other .number)

/-- `add_sector_percentiles`. -/
def addSectorPercentiles (values : Dict SecurityId (Dict String (FeatureValue K))) (sectors : Dict SecurityId String)
    (names : List String) : Option (Dict SecurityId (Dict String (FeatureValue K))) :=
  names.foldlM (addPercentile fl values sectors) values

end Builder
end Builder
end AsymmetricCommittee
