import AsymmetricCommittee.Lib.Except
import AsymmetricCommittee.Lib.Spans
import Mathlib.Data.List.Dedup
import Mathlib.Data.List.Sort
import Mathlib.Data.String.Basic

/-! `sectors.yaml` (`config/loader.py`): the crosswalk from SIC codes to sectors. The validators run as the source's do,
    and the values are the configurations they admit. -/

namespace AsymmetricCommittee

/-- `_ranges_valid`. -/
def rangesValid (sicRanges : List (Int × Int)) : Except String Unit :=
  sicRanges.forM fun r =>
    if 0 ≤ r.1 ∧ r.1 ≤ r.2 ∧ r.2 ≤ 9999 then .ok () else .error s!"bad SIC range [{r.1}, {r.2}]"

structure SectorEntry where
  sector : String
  etf : String
  sicRanges : List (Int × Int)
  sector_nonempty : 1 ≤ sector.length
  etf_nonempty : 1 ≤ etf.length
  sicRanges_nonempty : 1 ≤ sicRanges.length
  ranges_valid : rangesValid sicRanges = .ok ()

/-- A range with the sector it is listed under. -/
abbrev SicSpan := Int × Int × String

namespace SicSpan

def lo (span : SicSpan) : Int := span.1
def hi (span : SicSpan) : Int := span.2.1
def sector (span : SicSpan) : String := span.2.2

/-- Tuples compare by their first difference. -/
def le (a b : SicSpan) : Bool :=
  a.lo < b.lo || (a.lo == b.lo && (a.hi < b.hi || (a.hi == b.hi && decide (a.sector ≤ b.sector))))

end SicSpan

/-- The ranges of the entries in the order they are listed. -/
def listedSpans (sectors : List SectorEntry) : List SicSpan :=
  sectors.flatMap fun e => e.sicRanges.map fun r => (r.1, r.2, e.sector)

/-- `sorted(..)` of them. -/
def sortedSpans (sectors : List SectorEntry) : List SicSpan :=
  (listedSpans sectors).insertionSort fun a b => SicSpan.le a b = true

/-- A check of `_unique_and_disjoint`: no name is given twice. -/
def namesUnique (attr : String) (names : List String) : Except String Unit :=
  if names.dedup.length ≠ names.length then .error s!"duplicate {attr}" else .ok ()

/-- The check of two neighbours after the sort. -/
def neighboursDisjoint (a b : SicSpan) : Except String Unit :=
  if b.lo ≤ a.hi then .error s!"overlapping SIC ranges: {a.sector} / {b.sector}" else .ok ()

/-- `_unique_and_disjoint`. -/
def uniqueAndDisjoint (sectors : List SectorEntry) : Except String Unit := do
  namesUnique "sector" (sectors.map (·.sector))
  namesUnique "etf" (sectors.map (·.etf))
  let spans := sortedSpans sectors
  (spans.zip spans.tail).forM fun p => neighboursDisjoint p.1 p.2

structure SectorsConfig where
  confirmed : Bool
  sectors : List SectorEntry
  sectors_nonempty : 1 ≤ sectors.length
  unique_and_disjoint : uniqueAndDisjoint sectors = .ok ()

/-- The code is in one of the entry's ranges. -/
def SectorEntry.holds (self : SectorEntry) (sic : Int) : Bool := self.sicRanges.any fun r => r.1 ≤ sic && sic ≤ r.2

/-- The first entry with a range that holds the code. -/
def SectorsConfig.sectorForSic (self : SectorsConfig) (sic : Int) : Option SectorEntry :=
  self.sectors.find? (·.holds sic)

/-! ### What the validators admit -/

theorem namesUnique_eq_ok {attr : String} {names : List String} : namesUnique attr names = .ok () ↔ names.Nodup := by
  unfold namesUnique
  split
  · rename_i hlen
    refine iff_of_false (by simp) fun hnodup => hlen ?_
    rw [hnodup.dedup]
  · rename_i hlen
    refine iff_of_true rfl ?_
    have hsub := names.dedup_sublist
    rw [← hsub.eq_of_length (not_not.mp hlen)]
    exact names.nodup_dedup

theorem SectorEntry.range_le (self : SectorEntry) {r : Int × Int} (hr : r ∈ self.sicRanges) :
    0 ≤ r.1 ∧ r.1 ≤ r.2 ∧ r.2 ≤ 9999 := by
  have h := Except.forM_eq_ok.mp self.ranges_valid r hr
  by_contra hbad
  rw [if_neg hbad] at h
  cases h

theorem mem_listedSpans {sectors : List SectorEntry} {span : SicSpan} :
    span ∈ listedSpans sectors ↔ ∃ e ∈ sectors, (span.lo, span.hi) ∈ e.sicRanges ∧ span.sector = e.sector := by
  obtain ⟨lo, hi, sector⟩ := span
  simp only [listedSpans, List.mem_flatMap, List.mem_map, Prod.mk.injEq, SicSpan.lo, SicSpan.hi, SicSpan.sector]
  constructor
  · intro ⟨e, he, r, hr, hlo, hhi, hsector⟩
    subst hlo hhi
    exact ⟨e, he, hr, hsector.symm⟩
  · intro ⟨e, he, hr, hsector⟩
    exact ⟨e, he, (lo, hi), hr, rfl, rfl, hsector.symm⟩

end AsymmetricCommittee
