import AsymmetricCommittee.Contracts.Data
import AsymmetricCommittee.Lib.KeyedTable
import AsymmetricCommittee.Lib.PyText
import Mathlib.Data.List.Sort

/-! Incremental ingestion (`ingest/scheduled.py`): one poll of one feed over the listed names, and the outcome in
    `feed_health` (`record_feed_run`). What the sources answer and what the database refuses are surroundings. -/

namespace AsymmetricCommittee

/-- A name of the store, as far as a poll reads it. -/
structure Security where
  securityId : SecurityId
  ticker : Ticker
  cik : Int
  listedFrom : Option Date
  listedTo : Option Date

section Tables
variable (K : Type) [Field K] [LinearOrder K]

/-- A row of one of the tables that the polls fill. -/
inductive FactRow where
  | priceBar (r : PriceBar K)
  | fundamental (r : FundamentalFact K)
  | insiderTxn (r : InsiderTxn K)
  | newsItem (r : NewsItem)

end Tables

/-- The columns of a table's unique constraint. -/
inductive FactKey where
  | priceBar (securityId : SecurityId) (eventTime : Int) (sourceVersion : Version)
  | fundamental (securityId : SecurityId) (concept : Concept) (unit : Text 32) (periodStart : Option Date) (periodEnd : Date)
      (sourceVersion : Version)
  | insiderTxn (accession : Accession) (seq : Nat) (sourceVersion : Version)
  | newsItem (itemId : Text 128) (sourceVersion : Version)
  deriving DecidableEq

/-- One row of `feed_health`. -/
structure FeedHealth where
  feed : FeedName
  lastSuccessAt : Option AwareDatetime
  lastAvailableAt : Option AwareDatetime
  rows : Nat
  lastError : Option String
  updatedAt : AwareDatetime
  deriving DecidableEq, Repr

/-- The tables that a poll writes; those of the facts as one. -/
structure FeedTables (K : Type) [Field K] [LinearOrder K] where
  facts : List (FactRow K)
  feedHealth : List FeedHealth

/-- What an exception says of itself. -/
structure UnitError where
  type : String
  text : String
  deriving DecidableEq, Repr

structure Filing where
  accession : String
  form : String
  filingDate : Date
  acceptedAt : AwareDatetime
  primaryDocument : String

structure FeedRunResult where
  feed : FeedName
  ok : Bool
  rows : Nat
  errors : List String
  deriving DecidableEq, Repr

inductive RunFeedError where
  | noIngestJob (feed : FeedName)
  deriving DecidableEq, Repr

namespace Scheduled
variable {K : Type} [Field K] [LinearOrder K]

def newsBatch : Nat := 20
def errorChars : Nat := 2000
def insertChunk : Nat := 1000

def factOf : FactRow K → Fact
  | .priceBar r => r.toFact
  | .fundamental r => r.toFact
  | .insiderTxn r => r.toFact
  | .newsItem r => r.toFact

/-- The unique constraints `uq_price_bars`, `uq_fundamentals_asfiled`, `uq_insider_txns` and `uq_news_items`. -/
def factKey : FactRow K → FactKey
  | .priceBar r => .priceBar r.securityId r.eventTime.instant r.sourceVersion
  | .fundamental r => .fundamental r.securityId r.concept r.unit r.periodStart r.periodEnd r.sourceVersion
  | .insiderTxn r => .insiderTxn r.accession r.seq r.sourceVersion
  | .newsItem r => .newsItem r.itemId r.sourceVersion

/-- The later of two times, where there are any. -/
def later (latest last : Option AwareDatetime) : Option AwareDatetime :=
  match latest, last with
  | latest, none => latest
  | none, some last => some last
  | some latest, some last => if latest.instant < last.instant then some last else some latest

/-- `_latest`. -/
def latest (rows : List (FactRow K)) : Option AwareDatetime :=
  rows.foldl (fun cur r => later cur (some (factOf r).availableAt)) none

variable (K) in
/-- What the sources of a poll answer: rows, or an exception. -/
structure Sources where
  /-- `bars.history`. -/
  history : Ticker → SecurityId → Date → Date → AwareDatetime → Except UnitError (List (PriceBar K))
  /-- `news.fetch`. -/
  fetchNews : List Ticker → AwareDatetime → AwareDatetime → Dict Ticker SecurityId → AwareDatetime →
    Except UnitError (List NewsItem)
  /-- The filings of `fetch_company`. -/
  fetchCompany : Int → Date → Except UnitError (List Filing)
  fetchFundamentals : Int → SecurityId → Dict String AwareDatetime → Except UnitError (List (FundamentalFact K))
  fetchInsiderTxns : Int → SecurityId → List Filing → Except UnitError (List (InsiderTxn K))

variable (K) in
/-- One poll and its surroundings. -/
structure Poll where
  feed : FeedName
  now : AwareDatetime
  lookback : Int
  /-- The names that are stored by then. -/
  securities : List Security
  /-- The date in New York. -/
  et : AwareDatetime → Date
  src : Sources K
  /-- What the database raises when a chunk is inserted into the rows that it has. -/
  refuses : List (FactRow K) → List (FactRow K) → Option UnitError

variable (K) in
/-- One unit of a poll: its label, and what its sources answer. -/
structure IngestUnit where
  label : String
  fetch : Except UnitError (List (FactRow K))

/-! ### What a poll consists of -/

def forms : List String := ["4", "4/A"]

/-- `form4_filings`. -/
def form4Filings (filings : List Filing) (start stop : AwareDatetime) : List Filing :=
  filings.filter fun f => decide (f.form ∈ forms) && decide (start.instant ≤ f.acceptedAt.instant) &&
    decide (f.acceptedAt.instant ≤ stop.instant)

/-- `point_in_time.securities`: the names listed on a date. -/
def listed (securities : List Security) (on : Date) : List Security :=
  securities.filter fun s => s.listedFrom.all (fun d => decide (d ≤ on)) && s.listedTo.all fun d => decide (on ≤ d)

/-- The date in UTC. -/
def utcDate (t : AwareDatetime) : Date := t.instant / 86400000000

/-- `_units`: none where the feed has no ingest job. -/
def units (p : Poll K) (secs : List Security) : Option (List (IngestUnit K)) :=
  let startDt := p.now.plus (-p.lookback)
  let start := p.et startDt
  let today := p.et p.now
  match p.feed with
  | .priceBars => some <| secs.map fun s =>
      ⟨s.ticker.val, do
        let rows ← p.src.history s.ticker s.securityId start today p.now
        return rows.map .priceBar⟩
  | .news =>
    let sids := secs.foldl (fun (sids : Dict Ticker SecurityId) s => sids.set s.ticker s.securityId) Dict.empty
    let tickers := sids.keys.insertionSort fun t t' => t.val ≤ t'.val
    some <| (chunks newsBatch tickers).map fun batch =>
      ⟨String.intercalate "," (batch.map Subtype.val), do
        let rows ← p.src.fetchNews batch startDt p.now sids p.now
        return rows.map .newsItem⟩
  | .fundamentals => some <| secs.map fun s =>
      ⟨s.ticker.val, do
        let filings ← p.src.fetchCompany s.cik start
        let acceptance := filings.foldl (fun (acceptance : Dict String AwareDatetime) f =>
          acceptance.set f.accession f.acceptedAt) Dict.empty
        let rows ← p.src.fetchFundamentals s.cik s.securityId acceptance
        return rows.map .fundamental⟩
  | .insiderTrades => some <| secs.map fun s =>
      ⟨s.ticker.val, do
        let filings ← p.src.fetchCompany s.cik start
        let rows ← p.src.fetchInsiderTxns s.cik s.securityId (form4Filings filings startDt p.now)
        return rows.map .insiderTxn⟩
  | .regime | .features => none

/-! ### One unit -/

/-- `_insert`, chunk by chunk: how many rows were new or what it raises, and the rows when it does. -/
def insertChunks (refuses : List (FactRow K) → List (FactRow K) → Option UnitError) :
    List (List (FactRow K)) → List (FactRow K) → Nat → Except UnitError Nat × List (FactRow K)
  | [], facts, inserted => (.ok inserted, facts)
  | chunk :: rest, facts, inserted =>
    match refuses facts chunk with
    | some e => (.error e, facts)
    | none =>
      let facts' := KeyedTable.insertAll factKey facts chunk
      insertChunks refuses rest facts' (inserted + (facts'.length - facts.length))

/-- A unit's `load`: its rows are fetched and inserted. -/
def load (p : Poll K) (u : IngestUnit K) (facts : List (FactRow K)) :
    Except UnitError (Nat × Option AwareDatetime) × List (FactRow K) :=
  match u.fetch with
  | .error e => (.error e, facts)
  | .ok rows =>
    match insertChunks p.refuses (chunks insertChunk rows) facts 0 with
    | (.ok n, facts') => (.ok (n, latest rows), facts')
    | (.error e, facts') => (.error e, facts')

/-- `conn.begin_nested()`: what the load raises undoes what it wrote. -/
def beginNested (p : Poll K) (u : IngestUnit K) (facts : List (FactRow K)) :
    Except UnitError (Nat × Option AwareDatetime) × List (FactRow K) :=
  match load p u facts with
  | (.ok n, facts') => (.ok n, facts')
  | (.error e, _) => (.error e, facts)

variable (K) in
/-- What a poll has so far. -/
structure Progress where
  facts : List (FactRow K)
  rows : Nat
  latest : Option AwareDatetime
  errors : List String

/-- The line of a failed unit. -/
def errorLine (u : IngestUnit K) (e : UnitError) : String :=
  PyText.slice (u.label ++ ": " ++ e.type ++ ": " ++ e.text) 300

/-- One turn of the loop over the units. -/
def pollUnit (p : Poll K) (s : Progress K) (u : IngestUnit K) : Progress K :=
  match beginNested p u s.facts with
  | (.ok (n, last), facts) => ⟨facts, s.rows + n, later s.latest last, s.errors⟩
  | (.error e, facts) => ⟨facts, s.rows, s.latest, s.errors ++ [errorLine u e]⟩

/-! ### The outcome -/

/-- `record_feed_run`: a failure keeps the last success. -/
def recordFeedRun (health : List FeedHealth) (feed : FeedName) (at_ : AwareDatetime) (rows : Nat)
    (lastAvailableAt : Option AwareDatetime) (error : Option String) : List FeedHealth :=
  match KeyedTable.find FeedHealth.feed health feed with
  | none => health ++ [⟨feed, if error.isNone then some at_ else none, lastAvailableAt, rows, error, at_⟩]
  | some _ => KeyedTable.modify FeedHealth.feed health feed fun h =>
      { h with
        lastSuccessAt := if error.isNone then some at_ else h.lastSuccessAt
        lastAvailableAt := later h.lastAvailableAt lastAvailableAt
        rows := h.rows + rows
        lastError := error
        updatedAt := at_ }

/-- `run_feed`: every unit within a savepoint of its own, then the outcome, committed either way. -/
def runFeed (p : Poll K) (db : FeedTables K) : Except RunFeedError (FeedRunResult × FeedTables K) :=
  let secs := listed p.securities (utcDate p.now)
  match units p secs with
  | none => .error (.noIngestJob p.feed)
  | some units =>
    let start : List String := if secs = [] then ["no listed securities to ingest"] else []
    let s := units.foldl (pollUnit p) ⟨db.facts, 0, none, start⟩
    let error := if s.errors = [] then none else some (PyText.slice (String.intercalate "; " s.errors) errorChars)
    .ok (⟨p.feed, decide (s.errors = []), s.rows, s.errors⟩,
      ⟨s.facts, recordFeedRun db.feedHealth p.feed p.now s.rows s.latest error⟩)

/-- The tables after a poll: a feed without a job changes nothing. -/
def poll (db : FeedTables K) (p : Poll K) : FeedTables K :=
  match runFeed p db with
  | .ok (_, db') => db'
  | .error _ => db

/-- The tables after polls, one after the other. -/
def polls (db : FeedTables K) (ps : List (Poll K)) : FeedTables K := ps.foldl poll db

end Scheduled
end AsymmetricCommittee
