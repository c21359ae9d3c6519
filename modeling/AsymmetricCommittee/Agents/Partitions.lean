import AsymmetricCommittee.Agents.Partitioner
import AsymmetricCommittee.Features.Renderer
import Mathlib.Data.Finset.Dedup
import Mathlib.Data.List.Sort

/-! The input partition of every agent (`agents/partitions.py`). Each builder reads the feeds its agent may see; every
    feed is filtered by `availableAt ≤ asOf` once more. -/

namespace AsymmetricCommittee
namespace Partitions
open Renderer

def maxQuarters : Nat := 20
def maxInsiderRows : Nat := 25
def insiderLookbackDays : Int := 180
def clusterDays : Int := 14
def newsLookbackDays : Int := 30
def maxNewsRows : Nat := 10
def maxNewsChars : Nat := 400
def routineYears : Nat := 3
def quarterDays : Int × Int := (80, 100)

def regimeFeatures : List String :=
  ["spy_return_1m", "spy_return_3m", "spy_sma_50d_distance", "spy_sma_200d_distance", "spy_realized_vol_20d",
    "vix_proxy_zscore", "yield_10y_pct", "yield_3m_pct"]

/-- `_EVIDENCE_FEED`: what the ids of each feed begin with. -/
def evidenceFeed : List (String × FeedName) :=
  [("FIN", .fundamentals), ("INS", .insiderTrades), ("NEWS", .news), ("TECH", .features), ("MACRO", .regime)]

/-- Ratings and price targets, which induce herding. -/
def analystPattern : String :=
  r"\b(upgrade[sd]?|downgrade[sd]?|price[- ]targets?|target price|initiat\w+ coverage" ++
    r"|reiterat\w+|analyst\w*|overweight|underweight|outperform|underperform|(?:buy|sell|hold)" ++
    r"[- ]rating|rating (?:of|to|from)|raises? target|lowers? target|cuts? target)\b"

def isAnalystItem (py : PyText) (headline : String) : Bool := py.search analystPattern true headline

/-- The text that one agent is shown, and the evidence rows that it may cite. -/
structure Partition where
  agent : AgentName
  entityToken : EntityToken
  asOf : AwareDatetime
  text : String
  evidence : Finset (FeedName × String)

section Data
variable (K : Type) [Field K] [LinearOrder K]

/-- Everything the system holds for one security. -/
structure EntityData where
  securityId : SecurityId
  entityToken : EntityToken
  cik : Int
  sector : String
  mcapTier : Option McapTier
  features : FeatureRow K
  facts : List (FundamentalFact K)
  insiders : List (InsiderTxn K)
  news : List NewsItem
  adv30Usd : Option K

end Data

/-! ### Helpers -/

/-- The evidence id that a line begins with. -/
def evidenceId (line : List Char) : Option (FeedName × String) :=
  evidenceFeed.findSome? fun feed =>
    let start := (feed.1 ++ "_").toList
    let rest := line.drop start.length
    let word := rest.takeWhile fun c =>
      ('A' ≤ c && c ≤ 'Z') || ('a' ≤ c && c ≤ 'z') || ('0' ≤ c && c ≤ '9') || c = '_'
    if start.isPrefixOf line && !word.isEmpty && (rest.drop word.length).head? = some '\t' then
      some (feed.2, String.ofList (start ++ word))
    else none

/-- `_evidence`. -/
def evidence (text : String) : Finset (FeedName × String) := ((PyText.lines text).filterMap evidenceId).toFinset

/-- `_section`. -/
def makeSection (title body : String) : String := "## " ++ title ++ "\n" ++ body

/-- `_day_start`: midnight in UTC. -/
def dayStart (d : Date) : AwareDatetime := ⟨d * day, 0⟩

/-- The rows of a feed that are knowable at `asOf`. -/
def visible {ρ : Type} (fact : ρ → Fact) (asOf : AwareDatetime) (rows : List ρ) : List ρ :=
  rows.filter fun r => decide ((fact r).availableAt.instant ≤ asOf.instant)

section Numbers
variable {K : Type} [Field K] [LinearOrder K] (fl : PyFloat K)

/-- `_cell`. -/
def cell (value : Option K) : Except RenderError String :=
  match value with
  | none => .ok notAvailable
  | some value => if fl.isFinite value = false then .ok notAvailable else sig2 fl value

/-- `_ratio`. -/
def ratio (num den : Option K) : Option K :=
  match num, den with
  | some num, some den => if den = 0 then none else some (num / den)
  | _, _ => none

/-! ### Fundamentals -/

/-- `_is_quarterly`. -/
def isQuarterly (fact : FundamentalFact K) : Bool :=
  match fact.periodStart with
  | none => true
  | some start => quarterDays.1 ≤ fact.periodEnd - start && fact.periodEnd - start ≤ quarterDays.2

/-- `CONCEPTS`, of the series that the history reads. -/
def concepts : String → List String
  | "revenue" => ["us-gaap:RevenueFromContractWithCustomerExcludingAssessedTax", "us-gaap:SalesRevenueNet",
      "us-gaap:Revenues"]
  | "gross_profit" => ["us-gaap:GrossProfit"]
  | "operating_income" => ["us-gaap:OperatingIncomeLoss"]
  | "net_income" => ["us-gaap:NetIncomeLoss"]
  | "shares" => ["dei:EntityCommonStockSharesOutstanding", "us-gaap:CommonStocksIncludingAdditionalPaidInCapital"]
  | "assets" => ["us-gaap:Assets"]
  | "cash_flow" => ["us-gaap:NetCashProvidedByUsedInOperatingActivities"]
  | _ => []

/-- One fact of `quarterly_history`'s first loop: a later version replaces an earlier one. -/
def keepLatest (asOf : AwareDatetime) (latest : Dict (String × Date) (FundamentalFact K)) (f : FundamentalFact K) :
    Dict (String × Date) (FundamentalFact K) :=
  if asOf.instant < f.availableAt.instant then latest
  else
    match latest.get? (f.concept.val, f.periodEnd) with
    | none => latest.set (f.concept.val, f.periodEnd) f
    | some cur =>
      if cur.toFact.version < f.toFact.version then latest.set (f.concept.val, f.periodEnd) f else latest

/-- The quarterly values of the first concept that has any. -/
def series (latest : Dict (String × Date) (FundamentalFact K)) (name : String) : Dict Date K :=
  let rowsOf (concept : String) : Dict Date K :=
    latest.entries.foldl (fun rows kv =>
      if kv.1.1 = concept && isQuarterly kv.2 then rows.set kv.1.2 kv.2.value else rows) Dict.empty
  ((concepts name).map rowsOf).find? (fun rows => !rows.entries.isEmpty) |>.getD Dict.empty

/-- The value of a series about a year before. -/
def yearAgo (s : Dict Date K) (periodEnd : Date) : Option K :=
  let target := periodEnd - 365
  let near := s.keys.filter fun d => |d - target| ≤ 10
  match near with
  | [] => none
  | d :: rest => s.get? (rest.foldl (fun best d => if |d - target| < |best - target| then d else best) d)

def historyColumns : List String :=
  ["gross_margin", "operating_margin", "net_margin", "cfo_margin", "revenue_growth_yoy", "share_change_yoy",
    "accruals_ratio"]

/-- `quarterly_history`: the ratios of each quarter, the newest first. -/
def quarterlyHistory (facts : List (FundamentalFact K)) (asOf : AwareDatetime) :
    List (String × Date × List (String × Option K)) :=
  let latest := facts.foldl (keepLatest asOf) Dict.empty
  let revenue := series latest "revenue"
  let gross := series latest "gross_profit"
  let op := series latest "operating_income"
  let net := series latest "net_income"
  let cfo := series latest "cash_flow"
  let assets := series latest "assets"
  let shares := series latest "shares"
  let quarterOf (pe : Date) : Option (String × Date × List (String × Option K)) :=
    match fiscalIndex pe asOf with
    | .error _ => none
    | .ok label =>
      let rev := revenue.get? pe
      let accrual := (net.get? pe).bind fun net => (cfo.get? pe).map fun cfo => net - cfo
      some (label, pe,
        [("gross_margin", ratio (gross.get? pe) rev), ("operating_margin", ratio (op.get? pe) rev),
          ("net_margin", ratio (net.get? pe) rev), ("cfo_margin", ratio (cfo.get? pe) rev),
          ("revenue_growth_yoy", (ratio rev (yearAgo revenue pe)).map (· - 1)),
          ("share_change_yoy", (ratio (shares.get? pe) (yearAgo shares pe)).map (· - 1)),
          ("accruals_ratio", ratio accrual (assets.get? pe))])
  ((revenue.keys.insertionSort (· ≥ ·)).filterMap quarterOf).take maxQuarters

/-- `_history_table`. -/
def historyTable (facts : List (FundamentalFact K)) (asOf : AwareDatetime) : Except RenderError String := do
  let lines ← (quarterlyHistory facts asOf).mapM fun quarter => do
    let cells ← historyColumns.mapM fun column => cell fl (quarter.2.2.lookup column).join
    let age ← relativeDays (dayStart quarter.2.1) asOf
    return row (["FIN_" ++ PyText.remove '-' quarter.1, quarter.1, age] ++ cells)
  return joinLines (row (["evidence_id", "fiscal_period", "period_age"] ++ historyColumns) :: lines)

/-! ### Insiders -/

/-- `role_token`. -/
def roleToken (py : PyText) (txn : InsiderTxn K) : String :=
  let title := py.upper (txn.officerTitle.elim "" (·.val))
  match txn.role with
  | .officer =>
    if PyText.contains title "CEO" || PyText.contains title "CHIEF EXECUTIVE" then "ROLE_CEO"
    else if PyText.contains title "CFO" || PyText.contains title "CHIEF FINANCIAL" then "ROLE_CFO"
    else "ROLE_OFFICER"
  | .director => "ROLE_DIRECTOR"
  | .tenPercentOwner => "ROLE_10PCT"
  | .other => "ROLE_OTHER"

/-- `_direction`. -/
def direction (txn : InsiderTxn K) : String :=
  if txn.code = .p && txn.acquired then "buy"
  else if txn.code = .s && !txn.acquired then "sell"
  else "other_" ++ txn.code.value

/-- `_traded_in`: whether the filer bought or sold in a month. -/
def tradedIn (txns : List (InsiderTxn K)) (filer : String) (year month : Int) : Bool :=
  txns.any fun t =>
    t.filer.val = filer && (t.code = .p || t.code = .s) && (IsoTime.civil t.txnDate).year = year &&
      (IsoTime.civil t.txnDate).month = month

/-- `trade_tag`: routine when the filer traded in the same month of each of the three years before. -/
def tradeTag (txn : InsiderTxn K) (visible : List (InsiderTxn K)) : String :=
  let c := IsoTime.civil txn.txnDate
  if (List.range routineYears).all fun k => tradedIn visible txn.filer.val (c.year - (k + 1)) c.month then "ROUTINE"
  else
    match (visible.map (·.txnDate)).min? with
    | none => "UNKNOWN"
    | some earliest =>
      let e := IsoTime.civil earliest
      let covered := decide (e.year < c.year - routineYears ∨
        (e.year = c.year - routineYears ∧ (e.month < c.month ∨ (e.month = c.month ∧ e.day ≤ 1))))
      if covered then "OPPORTUNISTIC" else "UNKNOWN"

/-- `position_change`: shares traded over the position before the trade. -/
def positionChange (txn : InsiderTxn K) : Option K :=
  txn.postHoldings.bind fun post =>
    let prior := if txn.acquired then post.val - txn.shares.val else post.val + txn.shares.val
    if 0 < prior then some (txn.shares.val / prior) else none

/-- `adv_intensity`: dollars traded over the average dollar volume. -/
def advIntensity (txn : InsiderTxn K) (adv30Usd : Option K) : Option K :=
  match txn.price, adv30Usd with
  | some price, some adv => if adv ≤ 0 then none else some (txn.shares.val * price.val / adv)
  | _, _ => none

def insiderColumns : List String :=
  ["evidence_id", "exec", "role", "direction", "code", "txn_age", "filed_age", "pct_of_holdings", "adv_intensity",
    "plan_10b5_1", "tag", "cluster", "signal"]

/-- The order of the rows: by filing time, accession and line. -/
def txnKey (t : InsiderTxn K) : Int ×ₗ String ×ₗ Nat := toLex (t.availableAt.instant, toLex (t.accession.val, t.seq))

/-- One row of the insider table. -/
def insiderLine (py : PyText) (visible : List (InsiderTxn K)) (cik : Int) (adv30Usd : Option K) (asOf : AwareDatetime)
    (n : Nat) (t : InsiderTxn K) : Except RenderError String := do
  let buyers := visible.filter fun b => direction b = "buy"
  let tag := tradeTag t visible
  let cluster := ((buyers.filter fun b => |b.txnDate - t.txnDate| ≤ clusterDays).map (·.filer.val)).dedup.length
  let signal := direction t = "buy" && !t.is10b5One && tag = "OPPORTUNISTIC"
  let txnAge ← relativeDays (dayStart t.txnDate) asOf
  let filedAge ← relativeDays t.availableAt asOf
  let change ← cell fl (positionChange t)
  let intensity ← cell fl (advIntensity t adv30Usd)
  return row ["INS_" ++ toString n, Partitioner.personToken py t.filer.val cik, roleToken py t, direction t, t.code.value,
    txnAge, filedAge, change, intensity, if t.is10b5One then "1" else "0", tag,
    if direction t = "buy" then toString cluster else "0", if signal then "1" else "0"]

/-- `_insider_table`. -/
def insiderTable (py : PyText) (txns : List (InsiderTxn K)) (cik : Int) (adv30Usd : Option K) (asOf : AwareDatetime) :
    Except RenderError String := do
  let seen := visible (·.toFact) asOf txns
  let recent := ((seen.filter fun t => 0 ≤ dateOf asOf - t.txnDate && dateOf asOf - t.txnDate ≤ insiderLookbackDays).insertionSort
    fun a b => txnKey b ≤ txnKey a).take maxInsiderRows
  let lines ← recent.zipIdx.mapM fun t => insiderLine fl py seen cik adv30Usd asOf (t.2 + 1) t.1
  return joinLines (row insiderColumns :: lines)

end Numbers

/-! ### News -/

/-- One item of `_visible_news`'s loop: the latest revision that is knowable and about the security. -/
def keepRevision (securityId : SecurityId) (asOf : AwareDatetime) (latest : Dict String NewsItem) (item : NewsItem) :
    Dict String NewsItem :=
  if securityId ∉ item.securityIds ∨ asOf.instant < item.availableAt.instant then latest
  else
    match latest.get? item.itemId.val with
    | none => latest.set item.itemId.val item
    | some cur => if cur.availableAt.instant < item.availableAt.instant then latest.set item.itemId.val item else latest

def newsKey (i : NewsItem) : Int ×ₗ String := toLex (i.eventTime.instant, i.itemId.val)

/-- `_visible_news`. -/
def visibleNews (py : PyText) (news : List NewsItem) (securityId : SecurityId) (asOf : AwareDatetime) : List NewsItem :=
  let latest := news.foldl (keepRevision securityId asOf) Dict.empty
  let recent := latest.values.filter fun i =>
    0 ≤ asOf.instant - i.eventTime.instant && asOf.instant - i.eventTime.instant ≤ newsLookbackDays * day &&
      !isAnalystItem py i.headline.val
  (recent.insertionSort fun a b => newsKey b ≤ newsKey a).take maxNewsRows

/-- `_news_table`. -/
def newsTable (py : PyText) (news : List NewsItem) (securityId : SecurityId) (asOf : AwareDatetime) (masker : AliasMasker) :
    Except RenderError String := do
  let text (raw : String) : String := PyText.squeeze (scrubText py (masker.mask py raw))
  let lines ← (visibleNews py news securityId asOf).zipIdx.mapM fun item => do
    let age ← relativeDays item.1.eventTime asOf
    return row ["NEWS_" ++ toString (item.2 + 1), age, text item.1.headline.val,
      PyText.slice (text item.1.summary.val) maxNewsChars]
  return joinLines (row ["evidence_id", "age", "headline", "summary"] :: lines)

/-! ### The partitioner -/

section Partitioner
variable {K : Type} [Field K] [LinearOrder K]

variable (K) in
/-- Builds every agent's partition for one `asOf`. -/
structure Partitioner where
  asOf : AwareDatetime
  masker : AliasMasker
  world : List (FeatureRow K)
  sectors : Dict SecurityId String
  regime : Dict String (Option K)

namespace Partitioner

/-- `__init__`. -/
def make (asOf : AwareDatetime) (masker : AliasMasker) (world : List (FeatureRow K)) (sectors : Dict SecurityId String)
    (regime : Dict String (Option K)) : Except RenderError (Partitioner K) :=
  let unknown := regime.keys.filter fun name => name ∉ regimeFeatures
  if unknown ≠ [] then .error (.regimeNotAllowed (unknown.insertionSort (· ≤ ·)))
  else .ok ⟨asOf, masker, visible (·.toFact) asOf world, sectors, regime⟩

variable [FloorRing K] (fl : PyFloat K) (py : PyText) (self : Partitioner K) (e : EntityData K)

/-- `_header`. -/
def header : Except RenderError String := do
  let size ← mcapTierLabel e.mcapTier
  return makeSection "entity" ("entity\t" ++ e.entityToken.val ++ "\nsector\t" ++ e.sector ++ "\nsize\t" ++ size)

/-- `_features`. -/
def features (names : List String) (evidencePrefix : String) : Except RenderError String :=
  renderFeatures fl e.features self.world self.sectors names (some evidencePrefix)

/-- `_fundamentals`. -/
def fundamentals : Except RenderError (List String) := do
  let summary ← self.features fl e fundamentalFeatures "FIN_SUM"
  let history ← historyTable fl e.facts self.asOf
  return [makeSection "fundamentals_summary" summary, makeSection "fundamentals_history" history]

/-- `_regime_table`. -/
def regimeTable : Except RenderError String := do
  let named := regimeFeatures.zipIdx.filterMap fun name => (self.regime.get? name.1).map fun value => (name, value)
  let lines ← named.mapM fun x => do
    let value ← cell fl x.2
    return row ["MACRO_R_" ++ toString (x.1.2 + 1), x.1.1, value]
  return joinLines (row ["evidence_id", "feature", "value"] :: lines)

/-- `_finish`. -/
def finish (agent : AgentName) (sections : List String) : Except RenderError Partition := do
  let header ← header e
  let text := String.intercalate "\n\n" (header :: sections)
  return ⟨agent, e.entityToken, self.asOf, text, evidence text⟩

/-! One builder for each agent. -/

/-- Fundamentals only. -/
def value : Except RenderError Partition := do
  let fundamentals ← self.fundamentals fl e
  self.finish e .value fundamentals

/-- Fundamentals and masked news. -/
def qualityCatalyst : Except RenderError Partition := do
  let news ← newsTable py e.news e.securityId self.asOf self.masker
  let fundamentals ← self.fundamentals fl e
  self.finish e .qualityCatalyst (fundamentals ++ [makeSection "news" news])

/-- The summary of the fundamentals, and the insider trades. -/
def insider : Except RenderError Partition := do
  let summary ← self.features fl e fundamentalFeatures "FIN_SUM"
  let table ← insiderTable fl py e.insiders e.cik e.adv30Usd self.asOf
  self.finish e .insider [makeSection "fundamentals_summary" summary, makeSection "insider_trades" table]

/-- Price features only. -/
def technical : Except RenderError Partition := do
  let table ← self.features fl e priceFeatures "TECH"
  self.finish e .technical [makeSection "price_features" table]

/-- Regime, price features and masked news. -/
def macroNarrative : Except RenderError Partition := do
  let news ← newsTable py e.news e.securityId self.asOf self.masker
  let regime ← self.regimeTable fl
  let prices ← self.features fl e priceFeatures "MACRO_P"
  self.finish e .macroNarrative
    [makeSection "market_regime" regime, makeSection "price_features" prices, makeSection "news" news]

/-- All partitions. -/
def redTeam : Except RenderError Partition := do
  let news ← newsTable py e.news e.securityId self.asOf self.masker
  let fundamentals ← self.fundamentals fl e
  let table ← insiderTable fl py e.insiders e.cik e.adv30Usd self.asOf
  let prices ← self.features fl e priceFeatures "TECH"
  let regime ← self.regimeTable fl
  self.finish e .redTeam (fundamentals ++ [makeSection "insider_trades" table, makeSection "news" news,
    makeSection "price_features" prices, makeSection "market_regime" regime])

end Partitioner
end Partitioner
end Partitions
end AsymmetricCommittee
