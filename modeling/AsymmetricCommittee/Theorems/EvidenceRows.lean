import AsymmetricCommittee.Theorems.EvidenceIds
import AsymmetricCommittee.Contracts.Samples

/-! The rows that an agent may cite. A partition's evidence is what its tables' rows are called, and nothing that news or
    any other text says adds to it, unless a sector's name has a line of its own. Two rows are called the same exactly when
    two period ends get one label. -/

namespace AsymmetricCommittee
namespace Partitions
open Renderer PyText

section Cells
variable {K : Type} [Field K] [LinearOrder K] {fl : PyFloat K} {py : PyText}

/-! ### The ids of a partition -/

/-- The ids that the lines of a sector's name begin with, after its first line. -/
def sectorIds (sector : String) : List (FeedName × String) := (lines sector).tail.filterMap evidenceId

theorem oneLine_entityToken (token : EntityToken) : OneLine token.val := by
  obtain ⟨s, hs⟩ := token
  rw [isEntityToken] at hs
  simp only [List.span_eq_takeWhile_dropWhile, Bool.and_eq_true] at hs
  obtain ⟨-, hdigits⟩ := hs
  intro hmem
  rw [← List.takeWhile_append_dropWhile (p := fun c => decide ('A' ≤ c) && decide (c ≤ 'Z')) (l := s.toList)] at hmem
  rcases List.mem_append.mp hmem with hmem | hmem
  · exact absurd (List.all_eq_true.mp List.all_takeWhile _ hmem) (by decide)
  · split at hdigits
    · next digits hdrop =>
      rw [hdrop] at hmem
      simp only [Bool.and_eq_true] at hdigits
      rcases List.mem_cons.mp hmem with hmem | hmem
      · exact absurd hmem (by decide)
      · exact absurd (List.all_eq_true.mp hdigits.2 _ hmem) (by decide)
    · cases hdigits

theorem rowIds_header {e : EntityData K} {text : String} (h : Partitioner.header e = .ok text) :
    rowIds text = sectorIds e.sector := by
  obtain ⟨size, hsize, h⟩ := Except.bind_eq_ok.mp h
  rw [← Except.ok.inj h]
  have hsector : rowIds ("sector\t" ++ e.sector) = sectorIds e.sector := by
    rw [rowIds, lines_append (by decide), sectorIds]
    cases hlines : lines e.sector with
    | nil => rfl
    | cons first rest =>
      rw [List.modifyHead_cons, List.filterMap_cons_none (evidenceId_none fun c hc => ?_), List.tail_cons]
      have hhead : ("sector\t".toList ++ first).head? = some 's' := rfl
      rw [hhead] at hc
      cases hc
      decide
  have htoken : rowIds ("entity\t" ++ e.entityToken.val) = [] := by
    refine rowIds_none (oneLine_append.mpr ⟨by decide, oneLine_entityToken _⟩) fun c hc => ?_
    rw [String.toList_append] at hc
    cases hc
    decide
  have hlabel : rowIds ("size\t" ++ size) = [] := by
    rw [mcapTierLabel.eq_def] at hsize
    split at hsize <;> cases hsize <;> decide
  have hsplit : "entity\t" ++ e.entityToken.val ++ "\nsector\t" ++ e.sector ++ "\nsize\t" ++ size =
      "entity\t" ++ e.entityToken.val ++ "\n" ++ ("sector\t" ++ e.sector) ++ "\n" ++ ("size\t" ++ size) := by
    have hsector : ("\nsector\t" : String) = "\n" ++ "sector\t" := rfl
    have hsize : ("\nsize\t" : String) = "\n" ++ "size\t" := rfl
    rw [hsector, hsize]
    simp only [String.append_assoc]
  rw [rowIds_section (by decide), hsplit, rowIds_append, rowIds_append, htoken, hsector, hlabel, List.nil_append,
    List.append_nil]


/-- `1, …, n`. -/
def counted (n : Nat) : List Nat := (List.range n).map (· + 1)

/-- The tables that an agent is shown: the kind of their rows, and the numbers. -/
def tables (py : PyText) (p : Partitioner K) (e : EntityData K) : AgentName → List (RowKind × List Nat)
  | .value => [summary, quarters]
  | .qualityCatalyst => [summary, quarters, news]
  | .insider => [summary, trades]
  | .technical => [technical]
  | .macroNarrative => [regime, prices, news]
  | .redTeam => [summary, quarters, trades, news, technical, regime]
  | .cio | .quantBaseline => []
where
  summary := (.summary, counted fundamentalFeatures.length)
  quarters := (.quarter, (historyEnds e.facts p.asOf).map (quarterNumber p.asOf))
  trades := (.trade, counted (recentTrades e.insiders p.asOf).length)
  news := (.news, counted (visibleNews py e.news e.securityId p.asOf).length)
  technical := (.technical, counted priceFeatures.length)
  regime := (.regime, regimeNumbers p)
  prices := (.price, counted priceFeatures.length)

/-- The ids of the rows of some tables. -/
def tableIds (tables : List (RowKind × List Nat)) : List (FeedName × String) :=
  tables.flatMap fun t => t.2.map fun n => RowKey.id ⟨t.1, n⟩

theorem tableIds_counted (kind : RowKind) (n : Nat) :
    ((counted n).map fun n => RowKey.id ⟨kind, n⟩) = (List.range n).map fun n => RowKey.id ⟨kind, n + 1⟩ := by
  rw [counted, List.map_map]
  rfl

section Builders
variable [FloorRing K] {p : Partitioner K} {e : EntityData K} {part : Partition}

theorem rowIds_features (hfl : NumbersOneLine fl) {names : List String} (hnames : ∀ name ∈ names, OneLine name)
    (kind : RowKind) {evidencePrefix : String} (hbefore : evidencePrefix ++ "_" = kind.start) {table : String}
    (h : p.features fl e names evidencePrefix = .ok table) :
    rowIds table = (counted names.length).map fun n => RowKey.id ⟨kind, n⟩ := by
  rw [tableIds_counted]
  exact rowIds_renderFeatures hfl hnames hbefore h

omit [FloorRing K] in
theorem rowIds_finish {agent : AgentName} {sections : List String} (h : p.finish e agent sections = .ok part) :
    part.agent = agent ∧ part.evidence = evidence part.text ∧
      rowIds part.text = sectorIds e.sector ++ sections.flatMap rowIds := by
  obtain ⟨header, hheader, h⟩ := Except.bind_eq_ok.mp h
  rw [← Except.ok.inj h]
  refine ⟨rfl, rfl, ?_⟩
  rw [rowIds_sections, List.flatMap_cons, rowIds_header hheader]

theorem rowIds_fundamentals (hfl : NumbersOneLine fl) {sections : List String}
    (h : p.fundamentals fl e = .ok sections) :
    sections.flatMap rowIds = tableIds [tables.summary, tables.quarters p e] := by
  obtain ⟨summary, hsummary, h⟩ := Except.bind_eq_ok.mp h
  obtain ⟨history, hhistory, h⟩ := Except.bind_eq_ok.mp h
  rw [← Except.ok.inj h]
  have hs := rowIds_features hfl (by decide) .summary (by decide) hsummary
  have hh := rowIds_historyTable hfl hhistory
  simp only [List.flatMap_cons, List.flatMap_nil, List.append_nil, rowIds_section (show OneLine "fundamentals_summary" by decide),
    rowIds_section (show OneLine "fundamentals_history" by decide), hs, hh, tableIds, tables.summary, tables.quarters,
    List.map_map, Function.comp_def]

/-- Of every agent's partition: the ids of its lines are those of the tables' rows, after any that the sector's name
    brings. -/
theorem rowIds_build (hfl : NumbersOneLine fl) (hpy : HexDigests py)
    {build : Partitioner K → EntityData K → Except RenderError Partition} (hbuild : build ∈ builders fl py)
    (h : build p e = .ok part) : part.evidence = evidence part.text ∧
      rowIds part.text = sectorIds e.sector ++ tableIds (tables py p e part.agent) := by
  have hprices : ∀ name ∈ priceFeatures, OneLine name := by decide
  have hsummaries : ∀ name ∈ fundamentalFeatures, OneLine name := by decide
  have hnewsTitle : OneLine "news" := by decide
  have htradesTitle : OneLine "insider_trades" := by decide
  have hpricesTitle : OneLine "price_features" := by decide
  have hregimeTitle : OneLine "market_regime" := by decide
  have hsummaryTitle : OneLine "fundamentals_summary" := by decide
  simp only [builders, List.mem_cons, List.not_mem_nil, or_false] at hbuild
  rcases hbuild with rfl | rfl | rfl | rfl | rfl | rfl
  · obtain ⟨fundamentals, hfund, h⟩ := Except.bind_eq_ok.mp h
    obtain ⟨hagent, hev, hids⟩ := rowIds_finish h
    refine ⟨hev, ?_⟩
    rw [hids, hagent, rowIds_fundamentals hfl hfund]
    rfl
  · obtain ⟨news, hnews, h⟩ := Except.bind_eq_ok.mp h
    obtain ⟨fundamentals, hfund, h⟩ := Except.bind_eq_ok.mp h
    obtain ⟨hagent, hev, hids⟩ := rowIds_finish h
    refine ⟨hev, ?_⟩
    rw [hids, hagent, List.flatMap_append, rowIds_fundamentals hfl hfund, List.flatMap_singleton,
      rowIds_section hnewsTitle, rowIds_newsTable hnews, ← tableIds_counted]
    simp [tables, tableIds, tables.news]
  · obtain ⟨summary, hsummary, h⟩ := Except.bind_eq_ok.mp h
    obtain ⟨table, htable, h⟩ := Except.bind_eq_ok.mp h
    obtain ⟨hagent, hev, hids⟩ := rowIds_finish h
    refine ⟨hev, ?_⟩
    rw [hids, hagent, List.flatMap_cons, List.flatMap_singleton, rowIds_section hsummaryTitle, rowIds_section htradesTitle,
      rowIds_features hfl hsummaries .summary (by decide) hsummary, rowIds_insiderTable hfl hpy htable,
      ← tableIds_counted]
    simp [tables, tableIds, tables.summary, tables.trades]
  · obtain ⟨table, htable, h⟩ := Except.bind_eq_ok.mp h
    obtain ⟨hagent, hev, hids⟩ := rowIds_finish h
    refine ⟨hev, ?_⟩
    rw [hids, hagent, List.flatMap_singleton, rowIds_section hpricesTitle,
      rowIds_features hfl hprices .technical (by decide) htable]
    simp [tables, tableIds, tables.technical]
  · obtain ⟨news, hnews, h⟩ := Except.bind_eq_ok.mp h
    obtain ⟨regime, hregime, h⟩ := Except.bind_eq_ok.mp h
    obtain ⟨prices, hprice, h⟩ := Except.bind_eq_ok.mp h
    obtain ⟨hagent, hev, hids⟩ := rowIds_finish h
    refine ⟨hev, ?_⟩
    rw [hids, hagent, List.flatMap_cons, List.flatMap_cons, List.flatMap_singleton, rowIds_section hregimeTitle,
      rowIds_section hpricesTitle, rowIds_section hnewsTitle, rowIds_regimeTable hfl hregime,
      rowIds_features hfl hprices .price (by decide) hprice, rowIds_newsTable hnews, ← tableIds_counted]
    simp [tables, tableIds, tables.regime, tables.prices, tables.news]
  · obtain ⟨news, hnews, h⟩ := Except.bind_eq_ok.mp h
    obtain ⟨fundamentals, hfund, h⟩ := Except.bind_eq_ok.mp h
    obtain ⟨table, htable, h⟩ := Except.bind_eq_ok.mp h
    obtain ⟨prices, hprice, h⟩ := Except.bind_eq_ok.mp h
    obtain ⟨regime, hregime, h⟩ := Except.bind_eq_ok.mp h
    obtain ⟨hagent, hev, hids⟩ := rowIds_finish h
    refine ⟨hev, ?_⟩
    rw [hids, hagent, List.flatMap_append, rowIds_fundamentals hfl hfund, List.flatMap_cons, List.flatMap_cons,
      List.flatMap_cons, List.flatMap_singleton, rowIds_section htradesTitle, rowIds_section hnewsTitle,
      rowIds_section hpricesTitle, rowIds_section hregimeTitle, rowIds_insiderTable hfl hpy htable, rowIds_newsTable hnews,
      rowIds_features hfl hprices .technical (by decide) hprice, rowIds_regimeTable hfl hregime,
      ← tableIds_counted, ← tableIds_counted]
    simp [tables, tableIds, tables.trades, tables.news, tables.technical, tables.regime]

/-! ### Ids that are shared -/

theorem counted_nodup (n : Nat) : (counted n).Nodup := List.nodup_range.map fun _ _ h => Nat.succ.inj h

omit [FloorRing K] [Field K] [LinearOrder K] in
theorem regimeNumbers_nodup (p : Partitioner K) : (regimeNumbers p).Nodup := by
  have hsorted : (regimeFeatures.zipIdx.map fun x => x.2 + 1).Nodup := by decide
  exact hsorted.sublist (List.filter_sublist.map _)

/-- Tables of different kinds share no id, so the ids repeat only within a table. -/
theorem tableIds_nodup {tables : List (RowKind × List Nat)} (hkinds : (tables.map Prod.fst).Nodup) :
    (tableIds tables).Nodup ↔ ∀ t ∈ tables, t.2.Nodup := by
  rw [tableIds, List.nodup_flatMap]
  have hapart : tables.Pairwise (Function.onFun List.Disjoint fun t => t.2.map fun n => RowKey.id ⟨t.1, n⟩) := by
    refine (List.pairwise_map.mp hkinds).imp fun {s t} hne => ?_
    intro id hs ht
    obtain ⟨m, -, rfl⟩ := List.mem_map.mp hs
    obtain ⟨n, -, heq⟩ := List.mem_map.mp ht
    exact hne (congrArg RowKey.kind (RowKey.id_injective heq)).symm
  refine ⟨fun h t ht => (h.1 t ht).of_map _, fun h => ⟨fun t ht => (h t ht).map fun m n heq => ?_, hapart⟩⟩
  exact congrArg RowKey.number (RowKey.id_injective heq)

/-- The agents that are shown the history of the quarters. -/
def readsHistory : AgentName → Bool
  | .value | .qualityCatalyst | .redTeam => true
  | _ => false

/-- No two of the period ends of the history lie in one quarter, or both in the quarter of `asOf` or the one before it. -/
def OnePerQuarter (facts : List (FundamentalFact K)) (asOf : AwareDatetime) : Prop :=
  (historyEnds facts asOf).Pairwise fun a b => quarter a ≠ quarter b ∧
    (quarter a < quarter (dateOf asOf) - 1 ∨ quarter b < quarter (dateOf asOf) - 1)

/-- No later line of the sector's name begins with an id that another such line or a row of the tables has. -/
def SectorApart (py : PyText) (p : Partitioner K) (e : EntityData K) (agent : AgentName) : Prop :=
  (sectorIds e.sector).Nodup ∧ (sectorIds e.sector).Disjoint (tableIds (tables py p e agent))

omit [FloorRing K] [Field K] [LinearOrder K] in
theorem onePerQuarter_iff (facts : List (FundamentalFact K)) (asOf : AwareDatetime) :
    OnePerQuarter facts asOf ↔ ((historyEnds facts asOf).map (quarterNumber asOf)).Nodup := by
  rw [OnePerQuarter, List.Nodup, List.pairwise_map]
  refine List.Pairwise.iff_of_mem ?_
  intro a b _ _
  simp only [quarterNumber]
  omega

omit [FloorRing K] in
/-- Only the history may name two of its rows alike. -/
theorem tables_nodup (p : Partitioner K) (e : EntityData K) (agent : AgentName) :
    (tableIds (tables py p e agent)).Nodup ↔ (readsHistory agent = true → OnePerQuarter e.facts p.asOf) := by
  have hkinds : ((tables py p e agent).map Prod.fst).Nodup := by cases agent <;> simp [tables, tables.summary, tables.quarters, tables.news, tables.trades, tables.technical, tables.regime, tables.prices]
  rw [tableIds_nodup hkinds, onePerQuarter_iff]
  have hcounted := counted_nodup
  have hregime := regimeNumbers_nodup p
  cases agent <;> simp [tables, tables.summary, tables.quarters, tables.news, tables.trades, tables.technical, tables.regime, tables.prices, readsHistory, hcounted, hregime]

/-- The ids of a partition are unique exactly when no two period ends of a history that is shown get one label, and the
    sector's name brings none that is taken. -/
theorem evidence_unique_iff (hfl : NumbersOneLine fl) (hpy : HexDigests py)
    {build : Partitioner K → EntityData K → Except RenderError Partition} (hbuild : build ∈ builders fl py)
    (h : build p e = .ok part) : (rowIds part.text).Nodup ↔
      (readsHistory part.agent = true → OnePerQuarter e.facts p.asOf) ∧ SectorApart py p e part.agent := by
  rw [(rowIds_build hfl hpy hbuild h).2, List.nodup_append', tables_nodup, SectorApart]
  tauto

/-- Every id of a partition's evidence is that of a row of its tables, and every row may be cited; a later line of the
    sector's name that looks like a row is taken for one. -/
theorem evidence_rows (hfl : NumbersOneLine fl) (hpy : HexDigests py)
    {build : Partitioner K → EntityData K → Except RenderError Partition} (hbuild : build ∈ builders fl py)
    (h : build p e = .ok part) :
    part.evidence = (sectorIds e.sector ++ tableIds (tables py p e part.agent)).toFinset ∧
      (OneLine e.sector → part.evidence = (tableIds (tables py p e part.agent)).toFinset) := by
  obtain ⟨hev, hids⟩ := rowIds_build hfl hpy hbuild h
  rw [hev, evidence_eq, hids]
  refine ⟨rfl, fun hsector => ?_⟩
  rw [sectorIds, lines_of_oneLine hsector]
  rfl

end Builders
end Cells

/-! ### A company whose quarters end in July and October -/

def hexText : PyText := { plainText with sha256 := fun _ => "00" }

theorem hexText_digests : HexDigests hexText := by
  refine ⟨fun _ => by simp [hexText], fun text hhex hmem => ?_⟩
  have hdigit := hhex _ hmem
  revert hdigit
  decide

theorem plainFloat_oneLine : NumbersOneLine plainFloat := fun _ => show OneLine "0" by decide

/-- The revenue of the 91 days before a period end, known four weeks after it. -/
def quarterEnding (periodEnd : Date) : FundamentalFact ℚ where
  toFact := knownAfter (periodEnd + 28) ⟨"0000000001-25-000001", Samples.label_filing⟩
  securityId := ⟨1, Samples.one_securityId⟩
  concept := ⟨"us-gaap:Revenues", Samples.concept_revenues⟩
  unit := ⟨"USD", Samples.unit_usd⟩
  periodStart := some (periodEnd - 91)
  periodEnd := periodEnd
  fiscalPeriod := none
  form := none
  value := 100
  ordered := fun s hs => by
    rw [← Option.some.inj hs]
    exact sub_le_self _ (by decide)

/-- The partitioner on 1 December 2025. -/
def decemberPartitioner : Partitioner ℚ := { onePartitioner with asOf := ⟨20423 * day, 0⟩ }

/-- With revenues to 31 July and 31 October. -/
def retailer : EntityData ℚ := { oneSecurity with facts := [quarterEnding 20392, quarterEnding 20300] }

/-- With revenues to 30 June and 30 September. -/
def manufacturer : EntityData ℚ := { oneSecurity with facts := [quarterEnding 20361, quarterEnding 20269] }

theorem cell_plain (x : Option ℚ) : ∃ text, cell plainFloat x = .ok text := by
  cases x with
  | none => exact ⟨_, rfl⟩
  | some v =>
    have hfinite : ¬plainFloat.isFinite v = false := show ¬true = false from nofun
    rcases eq_or_ne v 0 with hv | hv
    · exact ⟨"0", by rw [cell, if_neg hfinite, sig2, if_neg hfinite, if_pos hv]⟩
    · exact ⟨_, by rw [cell, if_neg hfinite, sig2, if_neg hfinite, if_neg hv]⟩

/-- The history of period ends that are over is shown. -/
theorem historyTable_plain {facts : List (FundamentalFact ℚ)} {asOf : AwareDatetime}
    (h : ∀ pe ∈ historyEnds facts asOf, (dayStart pe).instant ≤ asOf.instant) :
    ∃ table, historyTable plainFloat facts asOf = .ok table := by
  obtain ⟨lines, hlines⟩ := Except.mapM_ok_of_forall
    (f := fun quarter : String × Date × List (String × Option ℚ) => do
      let cells ← historyColumns.mapM fun column => cell plainFloat (quarter.2.2.lookup column).join
      let age ← relativeDays (dayStart quarter.2.1) asOf
      return row (["FIN_" ++ PyText.remove '-' quarter.1, quarter.1, age] ++ cells))
    (l := quarterlyHistory facts asOf) fun quarter hquarter => by
      obtain ⟨cells, hcells⟩ := Except.mapM_ok_of_forall (l := historyColumns) fun column _ =>
        cell_plain (quarter.2.2.lookup column).join
      have hmem := List.mem_map_of_mem (f := fun q : String × Date × List (String × Option ℚ) => (q.1, q.2.1)) hquarter
      rw [quarterlyHistory_ends, List.mem_map] at hmem
      obtain ⟨pe, hpe, heq⟩ := hmem
      have hage : relativeDays (dayStart quarter.2.1) asOf =
          .ok ("t-" ++ toString ((asOf.instant - (dayStart quarter.2.1).instant) / day) ++ "d") := by
        rw [← (Prod.mk.inj heq).2, relativeDays, if_neg (not_lt.mpr (sub_nonneg.mpr (h pe hpe)))]
      exact ⟨_, Except.bind_eq_ok.mpr ⟨cells, hcells, Except.bind_eq_ok.mpr ⟨_, hage, rfl⟩⟩⟩
  exact ⟨_, Except.bind_eq_ok.mpr ⟨lines, hlines, rfl⟩⟩

theorem summary_shown : ((onePartitioner.features plainFloat oneSecurity fundamentalFeatures "FIN_SUM").toOption.any
    fun _ => true) = true := by decide

/-- The partition for the value agent of a company of this sector with these facts. -/
theorem value_shown {facts : List (FundamentalFact ℚ)} {asOf : AwareDatetime} (sector : String)
    (h : ∀ pe ∈ historyEnds facts asOf, (dayStart pe).instant ≤ asOf.instant) :
    ∃ part, ({ onePartitioner with asOf := asOf } : Partitioner ℚ).value plainFloat
      { oneSecurity with facts := facts, sector := sector } = .ok part := by
  obtain ⟨summary, hsummary, -⟩ := Except.exists_ok_of_any summary_shown
  obtain ⟨history, hhistory⟩ := historyTable_plain h
  have hfeatures : ({ onePartitioner with asOf := asOf } : Partitioner ℚ).features plainFloat
      { oneSecurity with facts := facts, sector := sector } fundamentalFeatures "FIN_SUM" = .ok summary := hsummary
  have hfundamentals : ({ onePartitioner with asOf := asOf } : Partitioner ℚ).fundamentals plainFloat
      { oneSecurity with facts := facts, sector := sector } =
      .ok [makeSection "fundamentals_summary" summary, makeSection "fundamentals_history" history] := by
    rw [Partitioner.fundamentals, hfeatures, hhistory]
    rfl
  exact ⟨_, Except.bind_eq_ok.mpr ⟨_, hfundamentals, rfl⟩⟩

theorem value_agent {p : Partitioner ℚ} {e : EntityData ℚ} {part : Partition} (h : p.value plainFloat e = .ok part) :
    part.agent = .value := by
  obtain ⟨sections, -, h⟩ := Except.bind_eq_ok.mp h
  exact (rowIds_finish h).1

theorem manufacturer_ends : historyEnds manufacturer.facts decemberPartitioner.asOf = [20361, 20269] := by decide

theorem manufacturer_shown : ∃ part, decemberPartitioner.value plainFloat manufacturer = .ok part :=
  value_shown _ fun pe hpe => by
    have hends : ∀ pe ∈ historyEnds manufacturer.facts decemberPartitioner.asOf, (dayStart pe).instant ≤ 20423 * day := by
      rw [manufacturer_ends]
      decide
    exact hends pe hpe

theorem retailer_ends : historyEnds retailer.facts decemberPartitioner.asOf = [20392, 20300] := by decide

theorem retailer_shown : ∃ part, decemberPartitioner.value plainFloat retailer = .ok part :=
  value_shown _ fun pe hpe => by
    have hends : ∀ pe ∈ historyEnds retailer.facts decemberPartitioner.asOf, (dayStart pe).instant ≤ 20423 * day := by
      rw [retailer_ends]
      decide
    exact hends pe hpe

/-- The name of a sector with a line of its own. -/
def forged : EntityData ℚ := { oneSecurity with sector := "Energy\nNEWS_9\tx" }

/-- Both quarters are `FIN_Q1`. -/
theorem evidence_repeated :
    ∃ part, decemberPartitioner.value plainFloat retailer = .ok part ∧ ¬(rowIds part.text).Nodup := by
  obtain ⟨part, hpart⟩ := retailer_shown
  obtain ⟨-, hids⟩ := rowIds_build plainFloat_oneLine hexText_digests List.mem_cons_self hpart
  refine ⟨part, hpart, fun hnodup => ?_⟩
  rw [hids, List.nodup_append', tables_nodup, value_agent hpart, onePerQuarter_iff, retailer_ends] at hnodup
  have hrepeat : ¬([20392, 20300].map (quarterNumber decemberPartitioner.asOf)).Nodup := by decide
  exact hrepeat (hnodup.2.1 rfl)

/-- Two quarters that end in September and June have rows of their own. -/
theorem evidence_unique_manufacturer :
    ∃ part, decemberPartitioner.value plainFloat manufacturer = .ok part ∧ (rowIds part.text).Nodup := by
  obtain ⟨part, hpart⟩ := manufacturer_shown
  have hquarters : OnePerQuarter manufacturer.facts decemberPartitioner.asOf := by
    rw [OnePerQuarter, manufacturer_ends]
    decide
  exact ⟨part, hpart, (evidence_unique_iff plainFloat_oneLine hexText_digests List.mem_cons_self hpart).mpr
    ⟨fun _ => hquarters, List.nodup_nil, List.disjoint_nil_left _⟩⟩

theorem forged_ends : historyEnds forged.facts onePartitioner.asOf = [] := by decide

theorem forged_shown : ∃ part, onePartitioner.value plainFloat forged = .ok part :=
  value_shown _ fun pe hpe => absurd (forged_ends ▸ hpe : pe ∈ []) List.not_mem_nil

theorem forged_sector : (FeedName.news, "NEWS_9") ∈ sectorIds forged.sector := by decide

theorem forged_tables : (FeedName.news, "NEWS_9") ∉ tableIds (tables hexText onePartitioner forged .value) := by
  decide

/-- The value agent may cite a news row that it was not shown. -/
theorem evidence_forged : ∃ part, onePartitioner.value plainFloat forged = .ok part ∧
    (FeedName.news, "NEWS_9") ∈ part.evidence ∧
      (FeedName.news, "NEWS_9") ∉ tableIds (tables hexText onePartitioner forged part.agent) := by
  obtain ⟨part, hpart⟩ := forged_shown
  obtain ⟨hevidence, hids⟩ := rowIds_build plainFloat_oneLine hexText_digests List.mem_cons_self hpart
  refine ⟨part, hpart, ?_, ?_⟩
  · rw [hevidence, evidence_eq, hids]
    exact List.mem_toFinset.mpr (List.mem_append_left _ forged_sector)
  · rw [value_agent hpart]
    exact forged_tables

/-- What the agent of a plain sector may cite. -/
theorem evidence_rows_manufacturer : ∃ part, decemberPartitioner.value plainFloat manufacturer = .ok part ∧
    part.evidence = (tableIds (tables hexText decemberPartitioner manufacturer part.agent)).toFinset := by
  obtain ⟨part, hpart⟩ := manufacturer_shown
  exact ⟨part, hpart, (evidence_rows plainFloat_oneLine hexText_digests List.mem_cons_self hpart).2 (by decide)⟩

end Partitions
end AsymmetricCommittee
