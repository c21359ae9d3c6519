import AsymmetricCommittee.Agents.Partitions
import AsymmetricCommittee.Contracts.Samples
import AsymmetricCommittee.Lib.Except
import Mathlib.Data.Rat.Floor

/-! What each agent's partition depends on: of every feed only the rows that are knowable at `asOf`, and only the feeds
    that the agent may see. Both are statements about two runs on inputs that agree on what counts. -/

namespace AsymmetricCommittee
namespace Partitions
open Renderer

/-! ### Rows that are not knowable yet -/

section Visible
variable {ρ : Type} {fact : ρ → Fact} {asOf : AwareDatetime}

theorem visible_visible (rows : List ρ) : visible fact asOf (visible fact asOf rows) = visible fact asOf rows := by
  rw [visible, visible, List.filter_filter]
  simp

/-- A loop that passes over what is not knowable yet sees the knowable rows only. -/
theorem foldl_visible {β : Type} {step : β → ρ → β}
    (hskip : ∀ b r, asOf.instant < (fact r).availableAt.instant → step b r = b) (b : β) (rows : List ρ) :
    (visible fact asOf rows).foldl step b = rows.foldl step b := by
  rw [visible, List.foldl_filter]
  refine List.foldl_ext _ _ _ fun b r _ => ?_
  by_cases hknown : (fact r).availableAt.instant ≤ asOf.instant
  · rw [if_pos (decide_eq_true hknown)]
  · rw [if_neg (by simpa using hknown), hskip b r (lt_of_not_ge hknown)]

end Visible

section Feeds
variable {K : Type} [Field K] [LinearOrder K] (fl : PyFloat K) (py : PyText) (asOf : AwareDatetime)

theorem quarterlyHistory_visible (facts : List (FundamentalFact K)) :
    quarterlyHistory (visible (·.toFact) asOf facts) asOf = quarterlyHistory facts asOf := by
  have hskip : ∀ (latest : Dict (String × Date) (FundamentalFact K)) (f : FundamentalFact K),
      asOf.instant < f.availableAt.instant → keepLatest asOf latest f = latest := by
    intro latest f hlate
    rw [keepLatest, if_pos hlate]
  rw [quarterlyHistory, quarterlyHistory, foldl_visible hskip]

theorem historyTable_visible (facts : List (FundamentalFact K)) :
    historyTable fl (visible (·.toFact) asOf facts) asOf = historyTable fl facts asOf := by
  rw [historyTable, historyTable, quarterlyHistory_visible]

theorem insiderTable_visible (txns : List (InsiderTxn K)) (cik : Int) (adv30Usd : Option K) :
    insiderTable fl py (visible (·.toFact) asOf txns) cik adv30Usd asOf = insiderTable fl py txns cik adv30Usd asOf := by
  rw [insiderTable, insiderTable, visible_visible]

theorem visibleNews_visible (news : List NewsItem) (securityId : SecurityId) :
    visibleNews py (visible (·.toFact) asOf news) securityId asOf = visibleNews py news securityId asOf := by
  have hskip : ∀ (latest : Dict String NewsItem) (i : NewsItem),
      asOf.instant < i.availableAt.instant → keepRevision securityId asOf latest i = latest := by
    intro latest i hlate
    rw [keepRevision, if_pos (Or.inr hlate)]
  rw [visibleNews, visibleNews, foldl_visible hskip]

theorem newsTable_visible (news : List NewsItem) (securityId : SecurityId) (masker : AliasMasker) :
    newsTable py (visible (·.toFact) asOf news) securityId asOf masker = newsTable py news securityId asOf masker := by
  rw [newsTable, newsTable, visibleNews_visible]

end Feeds

/-! ### Two runs that agree on the knowable rows -/

section PointInTime
variable {K : Type} [Field K] [LinearOrder K] [FloorRing K] {fl : PyFloat K} {py : PyText} {asOf : AwareDatetime}
variable {masker : AliasMasker} {world world' : List (FeatureRow K)} {sectors : Dict SecurityId String}
variable {regime : Dict String (Option K)} {p p' : Partitioner K} {e e' : EntityData K}

/-- The same security, with the same rows as far as they are knowable. -/
structure AgreeAt (asOf : AwareDatetime) (e e' : EntityData K) : Prop where
  securityId : e.securityId = e'.securityId
  entityToken : e.entityToken = e'.entityToken
  cik : e.cik = e'.cik
  sector : e.sector = e'.sector
  mcapTier : e.mcapTier = e'.mcapTier
  features : e.features = e'.features
  adv30Usd : e.adv30Usd = e'.adv30Usd
  facts : visible (·.toFact) asOf e.facts = visible (·.toFact) asOf e'.facts
  insiders : visible (·.toFact) asOf e.insiders = visible (·.toFact) asOf e'.insiders
  news : visible (·.toFact) asOf e.news = visible (·.toFact) asOf e'.news

variable (fl py) in
/-- The builder of each agent. -/
def builders : List (Partitioner K → EntityData K → Except RenderError Partition) :=
  [fun p e => p.value fl e, fun p e => p.qualityCatalyst fl py e, fun p e => p.insider fl py e,
    fun p e => p.technical fl e, fun p e => p.macroNarrative fl py e, fun p e => p.redTeam fl py e]

omit [Field K] [LinearOrder K] [FloorRing K] in
theorem make_eq_ok (h : Partitioner.make asOf masker world sectors regime = .ok p) :
    p = ⟨asOf, masker, visible (·.toFact) asOf world, sectors, regime⟩ := by
  rw [Partitioner.make] at h
  split at h
  · cases h
  · cases h
    rfl

/-- A security as far as it is knowable. -/
def known (asOf : AwareDatetime) (e : EntityData K) : EntityData K :=
  { e with
    facts := visible (·.toFact) asOf e.facts
    insiders := visible (·.toFact) asOf e.insiders
    news := visible (·.toFact) asOf e.news }

omit [FloorRing K] in
theorem AgreeAt.known_eq (h : AgreeAt asOf e e') : known asOf e = known asOf e' := by
  obtain ⟨_, _, _, _, _, _, facts, insiders, news, _⟩ := e
  obtain ⟨_, _, _, _, _, _, facts', insiders', news', _⟩ := e'
  obtain ⟨hid, htoken, hcik, hsector, htier, hfeatures, hadv, hfacts, hinsiders, hnews⟩ := h
  simp only at hid htoken hcik hsector htier hfeatures hadv hfacts hinsiders hnews
  subst hid htoken hcik hsector htier hfeatures hadv
  simp only [known, hfacts, hinsiders, hnews]

variable (fl) in
theorem fundamentals_known (p : Partitioner K) (e : EntityData K) :
    p.fundamentals fl (known p.asOf e) = p.fundamentals fl e := by
  have hhistory : historyTable fl (known p.asOf e).facts p.asOf = historyTable fl e.facts p.asOf :=
    historyTable_visible fl p.asOf e.facts
  rw [Partitioner.fundamentals, Partitioner.fundamentals, hhistory]
  rfl

/-- Every builder reads what is knowable. -/
theorem build_known (p : Partitioner K) (e : EntityData K) {build : Partitioner K → EntityData K → Except RenderError Partition}
    (hbuild : build ∈ builders fl py) : build p (known p.asOf e) = build p e := by
  have hfundamentals := fundamentals_known fl p e
  have hinsiders : insiderTable fl py (known p.asOf e).insiders (known p.asOf e).cik (known p.asOf e).adv30Usd p.asOf =
      insiderTable fl py e.insiders e.cik e.adv30Usd p.asOf := insiderTable_visible fl py p.asOf e.insiders e.cik e.adv30Usd
  have hnews : newsTable py (known p.asOf e).news (known p.asOf e).securityId p.asOf p.masker =
      newsTable py e.news e.securityId p.asOf p.masker := newsTable_visible py p.asOf e.news e.securityId p.masker
  simp only [builders, List.mem_cons, List.not_mem_nil, or_false] at hbuild
  rcases hbuild with rfl | rfl | rfl | rfl | rfl | rfl
  · show Partitioner.value fl p _ = Partitioner.value fl p e
    rw [Partitioner.value, Partitioner.value, hfundamentals]
    rfl
  · show Partitioner.qualityCatalyst fl py p _ = Partitioner.qualityCatalyst fl py p e
    rw [Partitioner.qualityCatalyst, Partitioner.qualityCatalyst, hnews, hfundamentals]
    rfl
  · show Partitioner.insider fl py p _ = Partitioner.insider fl py p e
    rw [Partitioner.insider, Partitioner.insider, hinsiders]
    rfl
  · rfl
  · show Partitioner.macroNarrative fl py p _ = Partitioner.macroNarrative fl py p e
    rw [Partitioner.macroNarrative, Partitioner.macroNarrative, hnews]
    rfl
  · show Partitioner.redTeam fl py p _ = Partitioner.redTeam fl py p e
    rw [Partitioner.redTeam, Partitioner.redTeam, hnews, hfundamentals, hinsiders]
    rfl

/-- Two runs on inputs that agree on the rows that are knowable build the same partition, for every agent. -/
theorem partitions_pointInTime (hp : Partitioner.make asOf masker world sectors regime = .ok p)
    (hp' : Partitioner.make asOf masker world' sectors regime = .ok p')
    (hworld : visible (·.toFact) asOf world = visible (·.toFact) asOf world') (he : AgreeAt asOf e e') :
    ∀ build ∈ builders fl py, build p e = build p' e' := by
  intro build hbuild
  have hpartitioner : p = p' := by rw [make_eq_ok hp, make_eq_ok hp', hworld]
  have hasOf : p.asOf = asOf := by rw [make_eq_ok hp]
  rw [← hpartitioner, ← build_known p e hbuild, ← build_known p e' hbuild, hasOf, he.known_eq]

end PointInTime

/-! ### Two runs that agree on what an agent may see -/

section Boundaries
variable {K : Type} [Field K] [LinearOrder K] {fl : PyFloat K} {py : PyText} {asOf : AwareDatetime}
variable {names : List String} {r r' : FeatureRow K} {world world' : List (FeatureRow K)}

/-- Two rows of one security with the same values under these names. -/
structure SameFeatures (names : List String) (r r' : FeatureRow K) : Prop where
  securityId : r.securityId = r'.securityId
  availableAt : r.availableAt = r'.availableAt
  values : ∀ name ∈ names, r.values.get? name = r'.values.get? name

omit [LinearOrder K] in
theorem SameFeatures.number_eq (h : SameFeatures names r r') {name : String} (hname : name ∈ names) :
    number fl r name = number fl r' name := by
  rw [number, number, h.values name hname]

omit [LinearOrder K] in
/-- The cross-section of a feature depends on its values only. -/
theorem column_congr (h : List.Forall₂ (SameFeatures names) world world') (sectors : Dict SecurityId String)
    {name : String} (hname : name ∈ names) : column fl world sectors name = column fl world' sectors name := by
  have hstep : ∀ (world world' : List (FeatureRow K)) (column : Dict SecurityId (Option K)),
      List.Forall₂ (SameFeatures names) world world' →
      (world.filter fun r => (sectors.get? r.securityId).isSome).foldl
          (fun column r => column.set r.securityId (number fl r name)) column =
        (world'.filter fun r => (sectors.get? r.securityId).isSome).foldl
          (fun column r => column.set r.securityId (number fl r name)) column := by
    intro world world' column h
    induction h generalizing column with
    | nil => rfl
    | cons hrow _ ih =>
      rw [List.filter_cons, List.filter_cons, hrow.securityId]
      split
      · rw [List.foldl_cons, List.foldl_cons, hrow.securityId, hrow.number_eq hname]
        exact ih _
      · exact ih _
  exact hstep world world' Dict.empty h

theorem featureLine_congr [FloorRing K] (hr : SameFeatures names r r')
    (hworld : List.Forall₂ (SameFeatures names) world world') (sectors : Dict SecurityId String) {name : String}
    (hname : name ∈ names) (kind : Kind) :
    featureLine fl r world sectors name kind = featureLine fl r' world' sectors name kind := by
  simp only [featureLine, hr.number_eq hname, hr.securityId, column_congr hworld sectors hname]

/-- A table of features depends on the values under its names, of the security and of its peers. -/
theorem renderFeatures_congr [FloorRing K] (hr : SameFeatures names r r')
    (hworld : List.Forall₂ (SameFeatures names) world world') (sectors : Dict SecurityId String)
    (evidencePrefix : Option String) :
    renderFeatures fl r world sectors names evidencePrefix = renderFeatures fl r' world' sectors names evidencePrefix := by
  have hlines : (names.mapM fun name => featureLine fl r world sectors name ((featureKinds.lookup name).getD .ratio)) =
      names.mapM fun name => featureLine fl r' world' sectors name ((featureKinds.lookup name).getD .ratio) :=
    Except.mapM_congr fun name hname => featureLine_congr hr hworld sectors hname _
  rw [renderFeatures, renderFeatures, hr.securityId, hlines]

omit [Field K] [LinearOrder K] in
/-- What is knowable of two such universes is such again. -/
theorem visible_sameFeatures (h : List.Forall₂ (SameFeatures names) world world') :
    List.Forall₂ (SameFeatures names) (visible (·.toFact) asOf world) (visible (·.toFact) asOf world') := by
  induction h with
  | nil => exact .nil
  | cons hrow _ ih =>
    rw [visible, visible, List.filter_cons, List.filter_cons, hrow.availableAt]
    split
    · exact .cons hrow ih
    · exact ih

variable {masker masker' : AliasMasker} {sectors : Dict SecurityId String} {regime regime' : Dict String (Option K)}
variable {p p' : Partitioner K} {e e' : EntityData K}

/-- What every partition begins with. -/
structure SameEntity (e e' : EntityData K) : Prop where
  securityId : e.securityId = e'.securityId
  entityToken : e.entityToken = e'.entityToken
  sector : e.sector = e'.sector
  mcapTier : e.mcapTier = e'.mcapTier

/-- The features under these names are the same, of the security and of its peers. -/
def SameSection (names : List String) (world world' : List (FeatureRow K)) (e e' : EntityData K) : Prop :=
  SameFeatures names e.features e'.features ∧ List.Forall₂ (SameFeatures names) world world'

theorem finish_congr (h : SameEntity e e') (hasOf : p.asOf = p'.asOf) (agent : AgentName) (sections : List String) :
    p.finish e agent sections = p'.finish e' agent sections := by
  simp only [Partitioner.finish, Partitioner.header, h.entityToken, h.sector, h.mcapTier, hasOf]

theorem features_congr [FloorRing K] (h : SameSection names p.world p'.world e e') (hsectors : p.sectors = p'.sectors)
    (evidencePrefix : String) : p.features fl e names evidencePrefix = p'.features fl e' names evidencePrefix := by
  rw [Partitioner.features, Partitioner.features, hsectors]
  exact renderFeatures_congr h.1 h.2 p'.sectors (some evidencePrefix)

theorem fundamentals_congr [FloorRing K] (h : SameSection fundamentalFeatures p.world p'.world e e')
    (hsectors : p.sectors = p'.sectors) (hasOf : p.asOf = p'.asOf) (hfacts : e.facts = e'.facts) :
    p.fundamentals fl e = p'.fundamentals fl e' := by
  rw [Partitioner.fundamentals, Partitioner.fundamentals, features_congr h hsectors, hfacts, hasOf]

section Builders
variable [FloorRing K] (he : SameEntity e e') (hasOf : p.asOf = p'.asOf) (hsectors : p.sectors = p'.sectors)
include he hasOf hsectors

theorem value_congr (h : SameSection fundamentalFeatures p.world p'.world e e') (hfacts : e.facts = e'.facts) :
    p.value fl e = p'.value fl e' := by
  simp only [Partitioner.value, fundamentals_congr h hsectors hasOf hfacts, finish_congr he hasOf]

theorem qualityCatalyst_congr (h : SameSection fundamentalFeatures p.world p'.world e e') (hfacts : e.facts = e'.facts)
    (hnews : e.news = e'.news) (hmasker : p.masker = p'.masker) :
    p.qualityCatalyst fl py e = p'.qualityCatalyst fl py e' := by
  simp only [Partitioner.qualityCatalyst, fundamentals_congr h hsectors hasOf hfacts, finish_congr he hasOf, hnews,
    hmasker, he.securityId, hasOf]

theorem insider_congr (h : SameSection fundamentalFeatures p.world p'.world e e') (hinsiders : e.insiders = e'.insiders)
    (hcik : e.cik = e'.cik) (hadv : e.adv30Usd = e'.adv30Usd) : p.insider fl py e = p'.insider fl py e' := by
  simp only [Partitioner.insider, features_congr h hsectors, finish_congr he hasOf, hinsiders, hcik, hadv, hasOf]

theorem technical_congr (h : SameSection priceFeatures p.world p'.world e e') : p.technical fl e = p'.technical fl e' := by
  simp only [Partitioner.technical, features_congr h hsectors, finish_congr he hasOf]

theorem macroNarrative_congr (h : SameSection priceFeatures p.world p'.world e e') (hnews : e.news = e'.news)
    (hmasker : p.masker = p'.masker) (hregime : p.regime = p'.regime) :
    p.macroNarrative fl py e = p'.macroNarrative fl py e' := by
  simp only [Partitioner.macroNarrative, Partitioner.regimeTable, features_congr h hsectors, finish_congr he hasOf, hnews,
    hmasker, hregime, he.securityId, hasOf]

end Builders

variable (fl py) in
/-- Two runs on data of one security build the same partition for an agent when they agree on what the agent may see:
    for the value agent the fundamental features and the facts; for the quality and catalyst agent the masked news
    too; for the insider agent the fundamental features, the insider trades and the average dollar volume; for the
    technical agent the price features; and for the macro agent the price features, the regime and the masked news. -/
theorem partitions_blinded [FloorRing K] (hp : Partitioner.make asOf masker world sectors regime = .ok p)
    (hp' : Partitioner.make asOf masker' world' sectors regime' = .ok p') (he : SameEntity e e') :
    (SameSection fundamentalFeatures world world' e e' → e.facts = e'.facts → p.value fl e = p'.value fl e') ∧
    (SameSection fundamentalFeatures world world' e e' → e.facts = e'.facts → e.news = e'.news → masker = masker' →
      p.qualityCatalyst fl py e = p'.qualityCatalyst fl py e') ∧
    (SameSection fundamentalFeatures world world' e e' → e.insiders = e'.insiders → e.cik = e'.cik →
      e.adv30Usd = e'.adv30Usd → p.insider fl py e = p'.insider fl py e') ∧
    (SameSection priceFeatures world world' e e' → p.technical fl e = p'.technical fl e') ∧
    (SameSection priceFeatures world world' e e' → e.news = e'.news → masker = masker' → regime = regime' →
      p.macroNarrative fl py e = p'.macroNarrative fl py e') := by
  obtain rfl := make_eq_ok hp
  obtain rfl := make_eq_ok hp'
  have hvisible {names : List String} (h : SameSection names world world' e e') :
      SameSection names (visible (·.toFact) asOf world) (visible (·.toFact) asOf world') e e' :=
    ⟨h.1, visible_sameFeatures h.2⟩
  refine ⟨fun h hfacts => ?_, fun h hfacts hnews hmasker => ?_, fun h hinsiders hcik hadv => ?_, fun h => ?_,
    fun h hnews hmasker hregime => ?_⟩
  · exact value_congr he rfl rfl (hvisible h) hfacts
  · exact qualityCatalyst_congr he rfl rfl (hvisible h) hfacts hnews hmasker
  · exact insider_congr he rfl rfl (hvisible h) hinsiders hcik hadv
  · exact technical_congr he rfl rfl (hvisible h)
  · exact macroNarrative_congr he rfl rfl (hvisible h) hnews hmasker hregime

end Boundaries

/-! ### A security with nothing known of it -/

/-- A library for texts in which nothing matches. -/
def plainText : PyText where
  nfkc := id
  casefold := id
  upper := id
  lower := id
  isDigit := Char.isDigit
  search := fun _ _ _ => false
  fullmatch := fun _ _ => none
  sub := fun _ _ _ text => text
  escape := id
  sha256 := id

/-- Numbers for tables without values. -/
def plainFloat : PyFloat ℚ := ⟨fun _ => true, fun _ => 0, fun _ => "0"⟩

def plainMasker : AliasMasker := ⟨Dict.empty, Dict.empty, Dict.empty, none⟩

/-- Known after this number of days. -/
def knownAfter (days : Int) (version : Version) : Fact := ⟨⟨0, 0⟩, ⟨days * day, 0⟩, version⟩

def oneRow (days : Int) (values : Dict String (FeatureValue ℚ)) : FeatureRow ℚ :=
  ⟨knownAfter days ⟨"f", by decide⟩, ⟨1, Samples.one_securityId⟩, ⟨"v1", Samples.label_v1⟩, values⟩

def oneFact : FundamentalFact ℚ :=
  ⟨knownAfter 2 ⟨"a", Samples.label_a⟩, ⟨1, Samples.one_securityId⟩, ⟨"us-gaap:Assets", by decide⟩, ⟨"USD", Samples.unit_usd⟩, none, 0, none, none, 7,
    nofun⟩

def oneTrade : InsiderTxn ℚ :=
  ⟨knownAfter 2 ⟨"0000000001-24-000001", by decide⟩, ⟨1, Samples.one_securityId⟩, ⟨"0000000001-24-000001", by decide⟩, 0,
    ⟨"Doe Jane", by decide⟩, .director, none, 0, .p, true, ⟨1, by decide⟩, none, none, false, rfl⟩

def oneItem : NewsItem :=
  ⟨knownAfter 2 ⟨"r1", by decide⟩, ⟨"n1", Samples.label_n1⟩, [⟨1, Samples.one_securityId⟩], ⟨0, 0⟩, ⟨"h", Samples.headline_h⟩, ⟨"", Samples.summary_empty⟩,
    ⟨"0000000000000000000000000000000000000000000000000000000000000000", Samples.sha256_zeros⟩, .alpaca, ⟨"", Samples.publisher_empty⟩,
    ⟨"", Samples.url_empty⟩, List.cons_ne_nil _ _⟩

def oneSecurity : EntityData ℚ where
  securityId := ⟨1, Samples.one_securityId⟩
  entityToken := ⟨"TICKER_01", by decide⟩
  cik := 1
  sector := "Energy"
  mcapTier := some .mid
  features := oneRow 0 Dict.empty
  facts := []
  insiders := []
  news := []
  adv30Usd := none

def oneSector : Dict SecurityId String := Dict.empty.set ⟨1, Samples.one_securityId⟩ "Energy"

/-- The partitioner after one day. -/
def onePartitioner : Partitioner ℚ := ⟨⟨day, 0⟩, plainMasker, [], oneSector, Dict.empty⟩

/-- What becomes known on the second day changes no partition of the first. -/
theorem partitions_pointInTime_later :
    (builders plainFloat plainText).map (fun build => build onePartitioner oneSecurity) =
      (builders plainFloat plainText).map fun build => build onePartitioner
        { oneSecurity with facts := [oneFact], insiders := [oneTrade], news := [oneItem] } := by
  have hp : Partitioner.make ⟨day, 0⟩ plainMasker [] oneSector Dict.empty = .ok onePartitioner := rfl
  have hp' : Partitioner.make ⟨day, 0⟩ plainMasker [oneRow 2 Dict.empty] oneSector Dict.empty = .ok onePartitioner := rfl
  exact List.map_congr_left (partitions_pointInTime hp hp' rfl ⟨rfl, rfl, rfl, rfl, rfl, rfl, rfl, rfl, rfl, rfl⟩)

/-- What an agent may not see changes nothing for it. -/
theorem partitions_blinded_others :
    onePartitioner.value plainFloat oneSecurity = onePartitioner.value plainFloat
      { oneSecurity with
        features := oneRow 0 (Dict.empty.set "return_1m" (.number 1)), insiders := [oneTrade], news := [oneItem] } ∧
    onePartitioner.qualityCatalyst plainFloat plainText oneSecurity =
      onePartitioner.qualityCatalyst plainFloat plainText { oneSecurity with insiders := [oneTrade] } ∧
    onePartitioner.insider plainFloat plainText oneSecurity =
      onePartitioner.insider plainFloat plainText { oneSecurity with news := [oneItem] } ∧
    onePartitioner.technical plainFloat oneSecurity = onePartitioner.technical plainFloat
      { oneSecurity with facts := [oneFact], insiders := [oneTrade], news := [oneItem] } ∧
    onePartitioner.macroNarrative plainFloat plainText oneSecurity = onePartitioner.macroNarrative plainFloat plainText
      { oneSecurity with facts := [oneFact], insiders := [oneTrade] } := by
  have hp : Partitioner.make ⟨day, 0⟩ plainMasker [] oneSector Dict.empty = .ok onePartitioner := rfl
  have hsame (names : List String) : SameFeatures names oneSecurity.features oneSecurity.features :=
    ⟨rfl, rfl, fun _ _ => rfl⟩
  have hprices : SameFeatures fundamentalFeatures oneSecurity.features
      (oneRow 0 (Dict.empty.set "return_1m" (.number 1))) := by
    refine ⟨rfl, rfl, fun name hname => ?_⟩
    have hne : name ≠ "return_1m" := by
      rintro rfl
      revert hname
      decide
    show (Dict.empty : Dict String (FeatureValue ℚ)).get? name = (Dict.empty.set "return_1m" (.number 1)).get? name
    rw [Dict.get?_set, if_neg hne]
  have hentity : SameEntity oneSecurity { oneSecurity with
      features := oneRow 0 (Dict.empty.set "return_1m" (.number 1)), insiders := [oneTrade], news := [oneItem] } :=
    ⟨rfl, rfl, rfl, rfl⟩
  refine ⟨?_, ?_, ?_, ?_, ?_⟩
  · exact (partitions_blinded plainFloat plainText hp hp hentity).1 ⟨hprices, .nil⟩ rfl
  · exact (partitions_blinded plainFloat plainText hp hp ⟨rfl, rfl, rfl, rfl⟩).2.1 ⟨hsame _, .nil⟩ rfl rfl rfl
  · exact (partitions_blinded plainFloat plainText hp hp ⟨rfl, rfl, rfl, rfl⟩).2.2.1 ⟨hsame _, .nil⟩ rfl rfl rfl
  · exact (partitions_blinded plainFloat plainText hp hp ⟨rfl, rfl, rfl, rfl⟩).2.2.2.1 ⟨hsame _, .nil⟩
  · exact (partitions_blinded plainFloat plainText hp hp ⟨rfl, rfl, rfl, rfl⟩).2.2.2.2 ⟨hsame _, .nil⟩ rfl rfl rfl

end Partitions
end AsymmetricCommittee
