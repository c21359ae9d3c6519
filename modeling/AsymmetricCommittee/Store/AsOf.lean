import AsymmetricCommittee.Contracts.Data
import AsymmetricCommittee.Lib.KeyedTable
import AsymmetricCommittee.Lib.Versions

/-! The read path of the fact tables (`store/as_of.py`). Every reader selects, per natural key, the latest version
    knowable at `asOf` among the rows that its conditions leave. -/

namespace AsymmetricCommittee

/-- A fact table: no two rows have one natural key and one source version. -/
structure FactTable (ρ κ : Type) (fact : ρ → Fact) (key : ρ → κ) where
  rows : List ρ
  unique : (rows.map fun r => (key r, (fact r).sourceVersion)).Nodup

/-- `_insert` of `store/write.py`: rows whose key and version are stored already are left out. -/
def FactTable.insert {ρ κ : Type} [DecidableEq κ] {fact : ρ → Fact} {key : ρ → κ} (table : FactTable ρ κ fact key)
    (rows : List ρ) : FactTable ρ κ fact key where
  rows := KeyedTable.insertAll (fun r => (key r, (fact r).sourceVersion)) table.rows rows
  unique := KeyedTable.unique_insertAll table.unique rows

namespace AsOf

section Latest
variable {ρ κ : Type} [LinearOrder κ] (fact : ρ → Fact) (key : ρ → κ)

/-- The rows that are knowable. -/
def knowable (rows : List ρ) (asOf : AwareDatetime) : List ρ :=
  rows.filter fun r => decide ((fact r).availableAt.instant ≤ asOf.instant)

/-- `_latest`: the latest version per key among the knowable rows that meet the conditions. -/
def latest (rows : List ρ) (asOf : AwareDatetime) (conditions : ρ → Bool) : List ρ :=
  Versions.newest key (fun r => (fact r).version) ((knowable fact rows asOf).filter conditions)

end Latest

section Readers
variable {K : Type} [Field K] [LinearOrder K]
-- how the database orders texts
variable {τ : Type} [LinearOrder τ] (collate : String → τ)

abbrev PriceBars (K : Type) [Field K] [LinearOrder K] :=
  FactTable (PriceBar K) (SecurityId × Int) (·.toFact) fun b => (b.securityId, b.eventTime.instant)

/-- `prices`: daily bars of the window, by security and time. -/
def prices (table : PriceBars K) (ids : List SecurityId) (asOf : AwareDatetime) (lookback : Int) : List (PriceBar K) :=
  latest (·.toFact) (fun b => toLex (b.securityId, b.eventTime.instant)) table.rows asOf fun b =>
    b.securityId ∈ ids && asOf.instant - lookback < b.eventTime.instant && b.eventTime.instant ≤ asOf.instant

abbrev Fundamentals (K : Type) [Field K] [LinearOrder K] :=
  FactTable (FundamentalFact K) (SecurityId × Concept × Text 32 × Option Date × Date) (·.toFact) fun f =>
    (f.securityId, f.concept, f.unit, f.periodStart, f.periodEnd)

/-- The order of the facts; a missing start comes last. -/
def factKey (f : FundamentalFact K) : SecurityId ×ₗ τ ×ₗ τ ×ₗ WithTop Date ×ₗ Date :=
  toLex (f.securityId, toLex (collate f.concept.val, toLex (collate f.unit.val, toLex
    ((f.periodStart : WithTop Date), f.periodEnd))))

/-- `fundamentals`: the facts of one security, of some concepts or of all. -/
def fundamentals (table : Fundamentals K) (securityId : SecurityId) (asOf : AwareDatetime)
    (concepts : Option (List String)) : List (FundamentalFact K) :=
  latest (·.toFact) (factKey collate) table.rows asOf fun f =>
    f.securityId = securityId && concepts.all fun concepts => f.concept.val ∈ concepts

abbrev InsiderTxns (K : Type) [Field K] [LinearOrder K] :=
  FactTable (InsiderTxn K) (Accession × Nat) (·.toFact) fun t => (t.accession, t.seq)

/-- `insider_txns`: lines whose filing became public in the window. -/
def insiderTxns (table : InsiderTxns K) (ids : List SecurityId) (asOf : AwareDatetime) (lookback : Int) :
    List (InsiderTxn K) :=
  latest (·.toFact) (fun t => toLex (collate t.accession.val, t.seq)) table.rows asOf fun t =>
    t.securityId ∈ ids && asOf.instant - lookback < t.availableAt.instant

abbrev NewsItems := FactTable NewsItem (Text 128) (·.toFact) (·.itemId)

/-- The conditions of `news`. -/
def newsConditions (ids : List SecurityId) (asOf : AwareDatetime) (lookback : Int) (n : NewsItem) : Bool :=
  n.securityIds.any (· ∈ ids) && asOf.instant - lookback < n.eventTime.instant

/-- `news`: items about any of the securities, published in the window. -/
def news (table : NewsItems) (ids : List SecurityId) (asOf : AwareDatetime) (lookback : Int) : List NewsItem :=
  latest (·.toFact) (fun n => collate n.itemId.val) table.rows asOf (newsConditions ids asOf lookback)

abbrev UniverseSnapshots (K : Type) [Field K] [LinearOrder K] :=
  FactTable (UniverseMember K) (Date × SecurityId) (·.toFact) fun m => (m.snapshotDate, m.securityId)

def memberKey (m : UniverseMember K) : Date ×ₗ SecurityId := toLex (m.snapshotDate, m.securityId)

/-- The most recent snapshot that is knowable. -/
def latestDate (table : UniverseSnapshots K) (asOf : AwareDatetime) : Option Date :=
  ((knowable (·.toFact) table.rows asOf).map (·.snapshotDate)).max?

/-- The conditions of `universe`. -/
def universeConditions (date : Date) (includedOnly : Bool) (m : UniverseMember K) : Bool :=
  m.snapshotDate = date && (!includedOnly || m.included)

/-- Members by rank; those without a rank come last. -/
def ranked (members : List (UniverseMember K)) : List (UniverseMember K) :=
  members.insertionSort fun a b => rankKey a ≤ rankKey b
where
  rankKey (m : UniverseMember K) : Bool ×ₗ Int ×ₗ SecurityId :=
    toLex (m.rank.isNone, toLex (m.rank.elim 0 (·.val), m.securityId))

/-- `universe`: the most recent monthly snapshot, ranked. -/
def universe_ (table : UniverseSnapshots K) (asOf : AwareDatetime) (includedOnly : Bool) : List (UniverseMember K) :=
  match latestDate table asOf with
  | none => []
  | some date => ranked (latest (·.toFact) memberKey table.rows asOf (universeConditions date includedOnly))

end Readers
end AsOf
end AsymmetricCommittee
