import AsymmetricCommittee.Contracts.Data
import AsymmetricCommittee.Lib.PyText
import Mathlib.Algebra.Order.Floor.Defs

/-! Rule set N (`features/renderer.py`): from contract rows to prompt text. What leaves this module is a ratio, a
    cross-sectional score or percentile with two significant figures, a small count or a flag. -/

namespace AsymmetricCommittee

/-- What Python's floats do beyond the operations of a field. -/
structure PyFloat (K : Type) where
  isFinite : K → Bool
  /-- `statistics.pstdev`. -/
  pstdev : List K → K
  /-- `f"{value:.2g}"`, written out as a plain decimal. -/
  format2g : K → String

/-- What rule set N forbids, or what cannot be rendered safely. -/
inductive RenderError where
  | timestampAfterAsOf
  | periodAfterAsOf
  | periodTooOld
  | tierUnknown
  | nonFinite
  | featureNotAllowed (name : String)
  | noSector
  | regimeNotAllowed (names : List String)
  deriving DecidableEq, Repr

namespace Renderer

def minGroup : Nat := 3
def maxFiscalIndex : Int := 20
/-- A missing value. -/
def notAvailable : String := "NA"
def header : String := "feature\tvalue\tsector_z\tsector_pct"

/-- `"\t".join(cells)`. -/
def row (cells : List String) : String := String.intercalate "\t" cells

/-- `"\n".join(lines)`. -/
def joinLines (lines : List String) : String := String.intercalate "\n" lines

/-! ### Features -/

inductive Kind where
  /-- A level: value, sector z-score and sector percentile. -/
  | ratio
  | percentile
  | count
  | flag
  deriving DecidableEq, Repr

def priceFeatures : List String :=
  ["return_1m", "return_3m", "return_6m", "momentum_12_1", "sma_20d_distance", "sma_50d_distance", "sma_200d_distance",
    "realized_vol_20d", "atr_20d_pct", "max_drawdown_63d", "volume_zscore_20d", "distance_52w_high"]

def fundamentalFeatures : List String :=
  ["ev_sales", "ev_ebit", "fcf_yield", "gross_margin_trend", "revenue_growth_yoy", "revenue_growth_3y_cagr",
    "net_debt_ebitda", "share_count_change", "accruals_ratio"]

/-- `FEATURE_KINDS`: the names that may be rendered. -/
def featureKinds : List (String × Kind) :=
  priceFeatures.map (·, .ratio) ++ fundamentalFeatures.map (·, .ratio) ++
    fundamentalFeatures.map (fun name => (name ++ "_sector_percentile", .percentile)) ++
    [("insider_distinct_buyers_90d", .count), ("insider_ceo_cfo_buy_flag_90d", .flag), ("news_count_zscore_7d", .ratio),
      ("news_source_diversity_7d", .count)]

/-! ### Free text -/

section Text
variable (py : PyText)

def numberPattern : String := r"\d(?:[\d,]*\d)?(?:\.\d+)?"

def monthPattern : String :=
  r"(?:jan(?:uary)?|feb(?:ruary)?|mar(?:ch)?|apr(?:il)?|may|june?|july?|aug(?:ust)?" ++
    r"|sep(?:t(?:ember)?)?|oct(?:ober)?|nov(?:ember)?|dec(?:ember)?)\b\.?"

def yearPattern : String := "(?:19|20)\\d\x7b2\x7d"

def amountPattern : String :=
  "(?:[$\u20ac\u00a3\u00a5]|\\b(?:USD|EUR|GBP)\\s?)" ++ numberPattern ++
    r"(?:\s?(?:thousand|million|billion|trillion|bn|mm|[kmbt])\b)?"

def magnitudePattern : String :=
  numberPattern ++ r"\s?(?:thousand|million|billion|trillion)\b(?:\s+(shares|dollars|euros|usd))?"

def sharesPattern : String := numberPattern ++ r"\s+shares\b"

/-- `_DATE_RES`: each pattern with its flag. -/
def datePatterns : List (String × Bool) :=
  [(r"\b" ++ yearPattern ++ r"[-/.](?:0?[1-9]|1[0-2])[-/.](?:0?[1-9]|[12]\d|3[01])\b", false),
    (r"\b(?:0?[1-9]|1[0-2])[-/.](?:0?[1-9]|[12]\d|3[01])[-/.](?:" ++ yearPattern ++ "|\\d\x7b2\x7d)\\b", false),
    (r"\b" ++ monthPattern ++ "\\s+\\d\x7b1,2\x7d(?:,?\\s+" ++ yearPattern ++ r")?\b", true),
    (r"\b" ++ monthPattern ++ r"\s+" ++ yearPattern ++ r"\b", true),
    (r"\bQ[1-4]\s?" ++ yearPattern ++ r"\b", true),
    (r"\b(?:FY|fiscal(?:\s+year)?)\s?(?:" ++ yearPattern ++ "|\\d\x7b2\x7d)\\b", true),
    (r"(?<!\d)" ++ yearPattern ++ r"(?!\d)", false)]

def longNumberPattern : String := r"(?<![\w.])" ++ numberPattern

def minLongDigits : Nat := 4

/-- `_magnitude`. -/
def magnitude (m : RegexMatch) : String :=
  let unit := py.lower ((m.groups[0]?.join).getD "")
  if unit = "shares" then "[SHARES]" else if unit ≠ "" then "[AMOUNT]" else "[NUM]"

/-- `_long_number`. -/
def longNumber (m : RegexMatch) : String :=
  if minLongDigits ≤ (m.text.toList.filter py.isDigit).length then "[NUM]" else m.text

/-- `scrub_text`: amounts, share counts, dates and long numbers become placeholders. -/
def scrubText (text : String) : String :=
  let text := py.sub amountPattern true (fun _ => "[AMOUNT]") text
  let text := py.sub magnitudePattern true (magnitude py) text
  let text := py.sub sharesPattern true (fun _ => "[SHARES]") text
  let text := datePatterns.foldl (fun text p => py.sub p.1 p.2 (fun _ => "[DATE]") text) text
  py.sub longNumberPattern false (longNumber py) text

end Text

/-! ### Times and sizes -/

def day : Int := 86400000000

/-- The date that a datetime writes. -/
def dateOf (t : AwareDatetime) : Date := (t.instant + t.offset) / day

/-- `relative_days`: whole days before `asOf`. -/
def relativeDays (ts asOf : AwareDatetime) : Except RenderError String :=
  if asOf.instant - ts.instant < 0 then .error .timestampAfterAsOf
  else .ok ("t-" ++ toString ((asOf.instant - ts.instant) / day) ++ "d")

/-- `_quarter`. -/
def quarter (d : Date) : Int :=
  let c := IsoTime.civil d
  c.year * 4 + (c.month - 1) / 3

/-- `fiscal_index`: `Q-1` is the latest completed quarter, and the quarter of `asOf` too. -/
def fiscalIndex (periodEnd : Date) (asOf : AwareDatetime) : Except RenderError String :=
  if dateOf asOf < periodEnd then .error .periodAfterAsOf
  else
    let idx := max 1 (quarter (dateOf asOf) - quarter periodEnd)
    if maxFiscalIndex < idx then .error .periodTooOld else .ok ("Q-" ++ toString idx)

/-- `mcap_tier_label`: the only size that an agent sees. -/
def mcapTierLabel : Option McapTier → Except RenderError String
  | none => .error .tierUnknown
  | some .small => .ok "Small-Cap"
  | some .mid => .ok "Mid-Cap"
  | some .large => .ok "Large-Cap"

/-! ### Cross-sections -/

section Numbers
variable {K : Type} [Field K] [LinearOrder K] (fl : PyFloat K)

/-- `sig2`: two significant figures. -/
def sig2 (value : K) : Except RenderError String :=
  if fl.isFinite value = false then .error .nonFinite
  else if value = 0 then .ok "0"
  else .ok (fl.format2g value)

/-- The finite values of a column. -/
def valid {κ : Type} (values : Dict κ (Option K)) : Dict κ K := values.filterMap fun _ v => v.filter fl.isFinite

section Columns
variable {κ : Type} [DecidableEq κ]

/-- `percentile_ranks`: mid-rank percentiles; none for missing values or a single name. -/
def percentileRanks (values : Dict κ (Option K)) : Dict κ (Option K) :=
  let valid := valid fl values
  let out := values.map fun _ _ => none
  if valid.entries.length < 2 then out
  else valid.entries.foldl (fun out kv =>
    let less := (valid.values.filter (· < kv.2)).length
    let equal := (valid.values.filter (· = kv.2)).length
    out.set kv.1 (some ((less + 0.5 * (equal - 1)) / (valid.entries.length - 1)))) out

/-- `_by_sector`: the groups in the order of their first names. -/
def bySector (values : Dict κ (Option K)) (sector : κ → String) : Dict String (Dict κ (Option K)) :=
  values.entries.foldl (fun groups kv =>
    let group := (groups.get? (sector kv.1)).getD Dict.empty
    groups.set (sector kv.1) (group.set kv.1 kv.2)) Dict.empty

/-- `sector_zscores`. -/
def sectorZscores (values : Dict κ (Option K)) (sector : κ → String) : Dict κ (Option K) :=
  (bySector values sector).values.foldl (fun out group =>
    let valid := valid fl group
    if valid.entries.length < minGroup then out
    else
      let mean := valid.values.sum / valid.entries.length
      let std := fl.pstdev valid.values
      valid.entries.foldl (fun out kv => out.set kv.1 (some (if std = 0 then 0 else (kv.2 - mean) / std))) out)
    (values.map fun _ _ => none)

/-- `_sector_percentiles`. -/
def sectorPercentiles (values : Dict κ (Option K)) (sector : κ → String) : Dict κ (Option K) :=
  (bySector values sector).values.foldl (fun out group =>
    if minGroup ≤ (valid fl group).entries.length then
      (percentileRanks fl group).entries.foldl (fun out kv => out.set kv.1 kv.2) out
    else out)
    (values.map fun _ _ => none)

end Columns

/-! ### Tables of features -/

/-- `_number`: a truth value or a finite number. -/
def number (r : FeatureRow K) (name : String) : Option K :=
  match r.values.get? name with
  | some (.bool b) => some (if b then 1 else 0)
  | some (.number x) => if fl.isFinite x then some x else none
  | some .other => none
  | none => none

/-- One feature of the universe's names that have a sector; a later row of a name replaces an earlier one. -/
def column (world : List (FeatureRow K)) (sectors : Dict SecurityId String) (name : String) : Dict SecurityId (Option K) :=
  (world.filter fun r => (sectors.get? r.securityId).isSome).foldl (fun column r => column.set r.securityId (number fl r name))
    Dict.empty

/-- A score that may be missing. -/
def score (x : Option K) : Except RenderError String :=
  match x with
  | none => .ok notAvailable
  | some x => sig2 fl x

/-- `int(value)`, toward zero. -/
def truncate [FloorRing K] (x : K) : Int := if 0 ≤ x then ⌊x⌋ else ⌈x⌉

/-- The line of one feature. -/
def featureLine [FloorRing K] (r : FeatureRow K) (world : List (FeatureRow K)) (sectors : Dict SecurityId String)
    (name : String) (kind : Kind) : Except RenderError String :=
  match number fl r name, kind with
  | none, .ratio => .ok (row [name, notAvailable, notAvailable, notAvailable])
  | none, _ => .ok (row [name, notAvailable, "", ""])
  | some value, .count | some value, .flag => .ok (row [name, toString (truncate value), "", ""])
  | some value, .percentile => do
    let cell ← sig2 fl value
    return row [name, cell, "", ""]
  | some value, .ratio => do
    let column := column fl world sectors name
    let sector := fun sid => (sectors.get? sid).getD ""
    let z := ((sectorZscores fl column sector).get? r.securityId).join
    let pct := ((sectorPercentiles fl column sector).get? r.securityId).join
    let cell ← sig2 fl value
    let zCell ← score fl z
    let pctCell ← score fl pct
    return row [name, cell, zCell, pctCell]

/-- Lines numbered from 1 by their evidence ids. -/
def numbered (prefix_ : String) (lines : List String) : List String :=
  lines.zipIdx.map fun line => row [prefix_ ++ "_" ++ toString (line.2 + 1), line.1]

/-- `render_features`: one security's features, each line with its evidence id. -/
def renderFeatures [FloorRing K] (r : FeatureRow K) (world : List (FeatureRow K)) (sectors : Dict SecurityId String)
    (names : List String) (evidencePrefix : Option String) : Except RenderError String := do
  match names.find? fun name => (featureKinds.lookup name).isNone with
  | some name => throw (.featureNotAllowed name)
  | none =>
    if (sectors.get? r.securityId).isNone then throw .noSector
    else
      let lines ← names.mapM fun name => featureLine fl r world sectors name ((featureKinds.lookup name).getD .ratio)
      match evidencePrefix with
      | none => return joinLines (header :: lines)
      | some evidencePrefix => return joinLines (row ["evidence_id", header] :: numbered evidencePrefix lines)

end Numbers
end Renderer
end AsymmetricCommittee
