import Mathlib
import AsymmetricCommittee.Store.AsOf
import AsymmetricCommittee.Contracts.Samples

/-! The readers of the fact tables and the versions in force. A reader filters before it selects, so that where the
    conditions are on columns that differ between the versions of a key, an older version can stand in for the one
    in force. -/

namespace AsymmetricCommittee
namespace AsOf
open Versions (InForce NewestPass Distinct newest)

/-! ### Every reader -/

section Latest
variable {ρ κ κ' : Type} [LinearOrder κ] {fact : ρ → Fact} {key : ρ → κ} {naturalKey : ρ → κ'} {asOf : AwareDatetime}

/-- The version in force of each key at `asOf`. -/
def inForce (fact : ρ → Fact) (key : ρ → κ) (rows : List ρ) (asOf : AwareDatetime) : List ρ :=
  newest key (fun r => (fact r).version) (knowable fact rows asOf)

/-- Every key of which a knowable row meets the conditions has its version in force meet them. -/
def InForcePass (fact : ρ → Fact) (key : ρ → κ) (rows : List ρ) (asOf : AwareDatetime) (conditions : ρ → Bool) : Prop :=
  NewestPass key (fun r => (fact r).version) conditions (knowable fact rows asOf)

omit [LinearOrder κ] in
/-- The unique constraint leaves no tie between the knowable versions of a key. -/
theorem distinct_knowable (table : FactTable ρ κ' fact naturalKey) (hkey : ∀ a b, key a = key b → naturalKey a = naturalKey b)
    (asOf : AwareDatetime) : Distinct key (fun r => (fact r).version) (knowable fact table.rows asOf) := by
  intro a ha b hb hab hversion
  have hsource : (fact a).sourceVersion = (fact b).sourceVersion :=
    Subtype.ext (congrArg (fun v => (ofLex v).2) hversion)
  exact List.inj_on_of_nodup_map table.unique (List.mem_of_mem_filter ha) (List.mem_of_mem_filter hb)
    (Prod.ext (hkey a b hab) hsource)

/-- A reader returns the versions in force that meet its conditions exactly when no older version meets them in
    place of one. -/
theorem latest_iff (table : FactTable ρ κ' fact naturalKey) (hkey : ∀ a b, key a = key b → naturalKey a = naturalKey b)
    (conditions : ρ → Bool) : latest fact key table.rows asOf conditions =
      (inForce fact key table.rows asOf).filter conditions ↔ InForcePass fact key table.rows asOf conditions :=
  Versions.newest_filter_iff (distinct_knowable table hkey asOf)

/-- What a reader returns is in force among the rows that meet its conditions. -/
theorem mem_latest (table : FactTable ρ κ' fact naturalKey) (hkey : ∀ a b, key a = key b → naturalKey a = naturalKey b)
    {conditions : ρ → Bool} {r : ρ} : r ∈ latest fact key table.rows asOf conditions ↔
      InForce key (fun r => (fact r).version) ((knowable fact table.rows asOf).filter conditions) r :=
  Versions.mem_newest ((distinct_knowable table hkey asOf).filter conditions)

/-- Nothing that was not knowable is read. -/
theorem available_of_mem_latest {rows : List ρ} {conditions : ρ → Bool} {r : ρ}
    (h : r ∈ latest fact key rows asOf conditions) : (fact r).availableAt.instant ≤ asOf.instant := by
  have hmem := (Versions.inForce_of_mem_newest h).1
  exact of_decide_eq_true (List.mem_filter.mp (List.mem_of_mem_filter hmem)).2

end Latest

section Readers
variable {K : Type} [Field K] [LinearOrder K] {τ : Type} [LinearOrder τ] {collate : String → τ} {asOf : AwareDatetime}

/-! ### Conditions on the key -/

theorem prices_inForce (table : PriceBars K) (ids : List SecurityId) (lookback : Int) :
    prices table ids asOf lookback = (inForce (·.toFact) (fun b => toLex (b.securityId, b.eventTime.instant)) table.rows
      asOf).filter fun b => b.securityId ∈ ids && asOf.instant - lookback < b.eventTime.instant &&
        b.eventTime.instant ≤ asOf.instant := by
  refine (latest_iff table (fun a b h => toLex.injective h) _).mpr (Versions.newestPass_of_key fun a b h => ?_)
  obtain ⟨hid, htime⟩ := Prod.mk.inj (toLex.injective h)
  rw [hid, htime]

omit [Field K] [LinearOrder K] [LinearOrder τ] in
theorem factKey_inj (hc : Function.Injective collate) {a b : FundamentalFact K} (h : factKey collate a = factKey collate b) :
    (a.securityId, a.concept, a.unit, a.periodStart, a.periodEnd) = (b.securityId, b.concept, b.unit, b.periodStart, b.periodEnd) := by
  have h₁ := Prod.mk.inj (toLex.injective h)
  have h₂ := Prod.mk.inj (toLex.injective h₁.2)
  have h₃ := Prod.mk.inj (toLex.injective h₂.2)
  have h₄ := Prod.mk.inj (toLex.injective h₃.2)
  exact Prod.ext h₁.1 (Prod.ext (Subtype.ext (hc h₂.1)) (Prod.ext (Subtype.ext (hc h₃.1)) (Prod.ext h₄.1 h₄.2)))

theorem fundamentals_inForce (hc : Function.Injective collate) (table : Fundamentals K) (securityId : SecurityId)
    (concepts : Option (List String)) : fundamentals collate table securityId asOf concepts =
      (inForce (·.toFact) (factKey collate) table.rows asOf).filter fun f =>
        f.securityId = securityId && concepts.all fun concepts => f.concept.val ∈ concepts := by
  refine (latest_iff table (fun a b h => factKey_inj hc h) _).mpr (Versions.newestPass_of_key fun a b h => ?_)
  obtain ⟨hid, hrest⟩ := Prod.mk.inj (factKey_inj hc h)
  rw [hid, (Prod.mk.inj hrest).1]

/-! ### Conditions on other columns -/

/-- The version in force of each item at `asOf`, of those about the securities and published in the window. -/
def newsInForce (collate : String → τ) (table : NewsItems) (ids : List SecurityId) (asOf : AwareDatetime) (lookback : Int) :
    List NewsItem :=
  (inForce (·.toFact) (fun n => collate n.itemId.val) table.rows asOf).filter (newsConditions ids asOf lookback)

/-- The version in force of each member of the most recent snapshot, of those that are included. -/
def universeInForce (table : UniverseSnapshots K) (asOf : AwareDatetime) (includedOnly : Bool) : List (UniverseMember K) :=
  match latestDate table asOf with
  | none => []
  | some date => ranked ((inForce (·.toFact) memberKey table.rows asOf).filter (universeConditions date includedOnly))

/-- No older version of an item meets the conditions in place of the one in force. -/
def NewsInForcePass (collate : String → τ) (table : NewsItems) (ids : List SecurityId) (asOf : AwareDatetime)
    (lookback : Int) : Prop :=
  InForcePass (·.toFact) (fun n => collate n.itemId.val) table.rows asOf (newsConditions ids asOf lookback)

/-- No older version of a member is included in place of the one in force. -/
def UniverseInForcePass (table : UniverseSnapshots K) (asOf : AwareDatetime) (includedOnly : Bool) : Prop :=
  ∀ date ∈ latestDate table asOf, InForcePass (·.toFact) memberKey table.rows asOf (universeConditions date includedOnly)

theorem news_eq_iff (hc : Function.Injective collate) (table : NewsItems) (ids : List SecurityId) (lookback : Int) :
    news collate table ids asOf lookback = newsInForce collate table ids asOf lookback ↔
      NewsInForcePass collate table ids asOf lookback :=
  latest_iff table (fun _ _ h => Subtype.ext (hc h)) _

/-- Ranking tells apart what comes in the order of its keys. -/
theorem ranked_inj {l l' : List (UniverseMember K)} (hl : l.Pairwise fun a b => memberKey a < memberKey b)
    (hl' : l'.Pairwise fun a b => memberKey a < memberKey b) : ranked l = ranked l' ↔ l = l' := by
  refine ⟨fun h => ?_, congrArg ranked⟩
  have hperm : l.Perm l' := by
    have hperm := List.perm_insertionSort (fun a b => ranked.rankKey a ≤ ranked.rankKey b) l
    have hperm' := List.perm_insertionSort (fun a b => ranked.rankKey a ≤ ranked.rankKey b) l'
    have heq : l.insertionSort (fun a b => ranked.rankKey a ≤ ranked.rankKey b) =
        l'.insertionSort (fun a b => ranked.rankKey a ≤ ranked.rankKey b) := h
    rw [heq] at hperm
    exact hperm.symm.trans hperm'
  exact Versions.eq_of_increasing hl hl' fun r => hperm.mem_iff

theorem universe_eq_iff (table : UniverseSnapshots K) (includedOnly : Bool) :
    universe_ table asOf includedOnly = universeInForce table asOf includedOnly ↔
      UniverseInForcePass table asOf includedOnly := by
  rw [universe_, universeInForce, UniverseInForcePass]
  cases latestDate table asOf with
  | none => simp
  | some date =>
    have hkey : ∀ a b : UniverseMember K, memberKey a = memberKey b → (a.snapshotDate, a.securityId) = (b.snapshotDate, b.securityId) :=
      fun a b h => toLex.injective h
    have hsome : (∀ d ∈ some date, InForcePass (·.toFact) memberKey table.rows asOf (universeConditions d includedOnly)) ↔
        InForcePass (·.toFact) memberKey table.rows asOf (universeConditions date includedOnly) := by simp
    rw [hsome, ← latest_iff table hkey]
    exact ranked_inj (Versions.newest_increasing ..) ((Versions.newest_increasing ..).filter _)

/-- The readers of the universe and of the news return the versions in force, filtered afterwards, exactly when no
    older knowable version meets the conditions where the one in force does not. -/
theorem universe_news_iff (hc : Function.Injective collate) (members : UniverseSnapshots K) (items : NewsItems)
    (asOf : AwareDatetime) (includedOnly : Bool) (ids : List SecurityId) (lookback : Int) :
    (universe_ members asOf includedOnly = universeInForce members asOf includedOnly ↔
      UniverseInForcePass members asOf includedOnly) ∧
    (news collate items ids asOf lookback = newsInForce collate items ids asOf lookback ↔
      NewsInForcePass collate items ids asOf lookback) :=
  ⟨universe_eq_iff members includedOnly, news_eq_iff hc items ids lookback⟩

end Readers

/-! ### A name removed and an article re-tagged -/

/-- One evaluation of a candidate, under one configuration. -/
def evaluated (included : Bool) (config : Version) : UniverseMember ℚ where
  eventTime := ⟨0, 0⟩
  availableAt := ⟨0, 0⟩
  sourceVersion := config
  snapshotDate := 0
  securityId := ⟨1, Samples.one_securityId⟩
  mcapUsd := none
  mcapTier := none
  advUsd := none
  price := none
  score := none
  rank := none
  included
  reason := ⟨"", by decide⟩

/-- One revision of an article. -/
def revision (hour : Int) (about : SecurityId) (version : Version) : NewsItem where
  eventTime := ⟨0, 0⟩
  availableAt := ⟨hour * 3600000000, 0⟩
  sourceVersion := version
  itemId := ⟨"n1", Samples.label_n1⟩
  securityIds := [about]
  publishedAt := ⟨0, 0⟩
  headline := ⟨"h", Samples.headline_h⟩
  summary := ⟨"", Samples.summary_empty⟩
  bodyHash := ⟨"0000000000000000000000000000000000000000000000000000000000000000", Samples.sha256_zeros⟩
  source := .alpaca
  publisher := ⟨"", Samples.publisher_empty⟩
  url := ⟨"", Samples.url_empty⟩
  securityIds_nonempty := List.cons_ne_nil _ _

def evaluatedTwice (included : Bool) : UniverseSnapshots ℚ :=
  ⟨[evaluated true ⟨"a", Samples.label_a⟩, evaluated included ⟨"b", by decide⟩], by
    have hne : ("a" : String) ≠ "b" := by decide
    simp [evaluated, hne]⟩

def revisedTwice (about : SecurityId) : NewsItems :=
  ⟨[revision 0 ⟨1, Samples.one_securityId⟩ ⟨"a", Samples.label_a⟩, revision 1 about ⟨"b", by decide⟩], by
    have hne : ("a" : String) ≠ "b" := by decide
    simp [revision, hne]⟩

/-- The older version is read although the one in force is no longer included, or no longer about the security. -/
theorem superseded_read :
    universe_ (evaluatedTwice false) ⟨0, 0⟩ true = [evaluated true ⟨"a", by decide⟩] ∧
    universeInForce (evaluatedTwice false) ⟨0, 0⟩ true = [] ∧
    news id (revisedTwice ⟨2, by decide⟩) [⟨1, le_rfl⟩] ⟨7200000000, 0⟩ 86400000000 =
      [revision 0 ⟨1, le_rfl⟩ ⟨"a", by decide⟩] ∧
    newsInForce id (revisedTwice ⟨2, by decide⟩) [⟨1, le_rfl⟩] ⟨7200000000, 0⟩ 86400000000 = [] := by
  refine ⟨?_, ?_, ?_, ?_⟩ <;> decide

/-- Versions that agree are read as they should be. -/
theorem universe_news_agreeing :
    universe_ (evaluatedTwice true) ⟨7200000000, 0⟩ true = universeInForce (evaluatedTwice true) ⟨7200000000, 0⟩ true ∧
    news id (revisedTwice ⟨1, le_rfl⟩) [⟨1, le_rfl⟩] ⟨7200000000, 0⟩ 86400000000 =
      newsInForce id (revisedTwice ⟨1, le_rfl⟩) [⟨1, le_rfl⟩] ⟨7200000000, 0⟩ 86400000000 := by
  obtain ⟨huniverse, hnews⟩ := universe_news_iff Function.injective_id (evaluatedTwice true) (revisedTwice ⟨1, le_rfl⟩)
    ⟨7200000000, 0⟩ true [⟨1, le_rfl⟩] 86400000000
  have hmembers : ∀ m ∈ (evaluatedTwice true).rows, universeConditions 0 true m = true := by decide
  have hitems : ∀ n ∈ (revisedTwice ⟨1, le_rfl⟩).rows,
      newsConditions [⟨1, le_rfl⟩] ⟨7200000000, 0⟩ 86400000000 n = true := by decide
  constructor
  · refine huniverse.mpr fun date hdate r _ _ r' hr' _ => ?_
    have hzero : latestDate (evaluatedTwice true) ⟨7200000000, 0⟩ = some 0 := by decide
    rw [hzero, Option.mem_some_iff] at hdate
    rw [← hdate]
    exact hmembers r' (List.mem_of_mem_filter hr'.1)
  · exact hnews.mpr fun r _ _ r' hr' _ => hitems r' (List.mem_of_mem_filter hr'.1)

end AsOf
end AsymmetricCommittee
