import AsymmetricCommittee.Config.Sectors
import Mathlib

/-! The crosswalk's ranges. The validator compares neighbours after a sort; it admits a configuration exactly when no two
    ranges share a code, so a code has one sector whatever the order of the sectors and of their ranges. -/

namespace AsymmetricCommittee

namespace SicSpan

theorem total (a b : SicSpan) : SicSpan.le a b = true ∨ SicSpan.le b a = true := by
  rcases lt_trichotomy a.lo b.lo with h | h | h
  · simp [SicSpan.le, h]
  · rcases lt_trichotomy a.hi b.hi with h' | h' | h'
    · simp [SicSpan.le, h, h']
    · rcases le_total a.sector b.sector with h'' | h''
      · simp [SicSpan.le, h, h', h'']
      · simp [SicSpan.le, h, h', h'']
    · simp [SicSpan.le, h, h']
  · simp [SicSpan.le, h]

theorem trans {a b c : SicSpan} (hab : SicSpan.le a b = true) (hbc : SicSpan.le b c = true) : SicSpan.le a c = true := by
  simp only [SicSpan.le, Bool.or_eq_true, Bool.and_eq_true, decide_eq_true_eq, beq_iff_eq] at hab hbc ⊢
  rcases hab with hab | ⟨hab, hab' | ⟨hab', hab''⟩⟩
  · rcases hbc with hbc | ⟨hbc, -⟩
    · exact Or.inl (hab.trans hbc)
    · exact Or.inl (hbc ▸ hab)
  · rcases hbc with hbc | ⟨hbc, hbc' | ⟨hbc', -⟩⟩
    · exact Or.inl (hab ▸ hbc)
    · exact Or.inr ⟨hab.trans hbc, Or.inl (hab'.trans hbc')⟩
    · exact Or.inr ⟨hab.trans hbc, Or.inl (hbc' ▸ hab')⟩
  · rcases hbc with hbc | ⟨hbc, hbc' | ⟨hbc', hbc''⟩⟩
    · exact Or.inl (hab ▸ hbc)
    · exact Or.inr ⟨hab.trans hbc, Or.inl (hab' ▸ hbc')⟩
    · exact Or.inr ⟨hab.trans hbc, Or.inr ⟨hab'.trans hbc', hab''.trans hbc''⟩⟩

theorem lo_le_of_le {a b : SicSpan} (h : SicSpan.le a b = true) : a.lo ≤ b.lo := by
  simp only [SicSpan.le, Bool.or_eq_true, Bool.and_eq_true, decide_eq_true_eq, beq_iff_eq] at h
  omega

end SicSpan

section Validator
variable {sectors sectors' : List SectorEntry}

theorem sortedSpans_perm (sectors : List SectorEntry) : (sortedSpans sectors).Perm (listedSpans sectors) :=
  List.perm_insertionSort _ _

theorem sortedSpans_ascending (sectors : List SectorEntry) : (sortedSpans sectors).Pairwise fun a b => a.lo ≤ b.lo := by
  have : Std.Total fun a b : SicSpan => SicSpan.le a b = true := ⟨SicSpan.total⟩
  have : IsTrans SicSpan fun a b => SicSpan.le a b = true := ⟨fun _ _ _ => SicSpan.trans⟩
  have hsort := List.pairwise_insertionSort (fun a b : SicSpan => SicSpan.le a b = true) (listedSpans sectors)
  exact hsort.imp SicSpan.lo_le_of_le

theorem listedSpans_le {span : SicSpan} (h : span ∈ listedSpans sectors) : span.lo ≤ span.hi := by
  obtain ⟨e, -, hr, -⟩ := mem_listedSpans.mp h
  exact (e.range_le hr).2.1

/-- The walk over the neighbours passes when each ends before the next. -/
theorem neighbours_eq_ok {spans : List SicSpan} :
    (spans.zip spans.tail).forM (fun p => neighboursDisjoint p.1 p.2) = .ok () ↔
      spans.IsChain (Spans.Before SicSpan.lo SicSpan.hi) := by
  rw [Except.forM_eq_ok]
  induction spans with
  | nil => simp
  | cons a spans ih =>
    cases spans with
    | nil => simp
    | cons b spans =>
      rw [List.isChain_cons_cons, ← ih]
      simp only [List.tail_cons, List.zip_cons_cons, List.forall_mem_cons]
      refine and_congr ?_ Iff.rfl
      simp [neighboursDisjoint, Spans.Before]

/-- What the validator admits: distinct names, distinct ETFs and no code in two ranges. -/
theorem uniqueAndDisjoint_eq_ok :
    uniqueAndDisjoint sectors = .ok () ↔ (sectors.map (·.sector)).Nodup ∧ (sectors.map (·.etf)).Nodup ∧
      (listedSpans sectors).Pairwise (Spans.Apart SicSpan.lo SicSpan.hi) := by
  have hspan : ∀ span ∈ sortedSpans sectors, span.lo ≤ span.hi := by
    intro span h
    exact listedSpans_le ((sortedSpans_perm sectors).mem_iff.mp h)
  rw [← Spans.pairwise_apart_perm (sortedSpans_perm sectors),
    ← Spans.isChain_before_iff hspan (sortedSpans_ascending sectors), ← neighbours_eq_ok,
    ← @namesUnique_eq_ok "sector", ← @namesUnique_eq_ok "etf"]
  unfold uniqueAndDisjoint
  constructor
  · intro h
    obtain ⟨_, hsector, h⟩ := Except.bind_eq_ok.mp h
    obtain ⟨_, hetf, h⟩ := Except.bind_eq_ok.mp h
    exact ⟨hsector, hetf, h⟩
  · intro ⟨hsector, hetf, h⟩
    rw [hsector, hetf]
    exact h

end Validator

/-- The same entry up to the order of its ranges. -/
structure SameEntry (e e' : SectorEntry) : Prop where
  sector : e.sector = e'.sector
  etf : e.etf = e'.etf
  ranges : e.sicRanges.Perm e'.sicRanges

/-- The same sectors with the same ranges, listed in other orders. -/
def Relisted (sectors sectors' : List SectorEntry) : Prop :=
  ∃ middle, sectors.Perm middle ∧ List.Forall₂ SameEntry middle sectors'

section Relisted
variable {e e' : SectorEntry} {sectors middle sectors' : List SectorEntry}

theorem holds_iff {sic : Int} : e.holds sic = true ↔ ∃ r ∈ e.sicRanges, r.1 ≤ sic ∧ sic ≤ r.2 := by
  simp [SectorEntry.holds]

theorem SameEntry.holds_eq (h : SameEntry e e') (sic : Int) : e.holds sic = e'.holds sic := h.ranges.any_eq

theorem listedSpans_perm (h : sectors.Perm middle) : (listedSpans sectors).Perm (listedSpans middle) := h.flatMap_right _

theorem listedSpans_forall₂ (h : List.Forall₂ SameEntry middle sectors') :
    (listedSpans middle).Perm (listedSpans sectors') := by
  induction h with
  | nil => exact List.Perm.refl _
  | cons hentry _ ih =>
    simp only [listedSpans, List.flatMap_cons, hentry.sector]
    exact (hentry.ranges.map _).append ih

/-- Whether a configuration is admitted is no matter of the order its sectors and ranges are listed in. -/
theorem Relisted.uniqueAndDisjoint (h : Relisted sectors sectors') (hok : uniqueAndDisjoint sectors = .ok ()) :
    uniqueAndDisjoint sectors' = .ok () := by
  obtain ⟨middle, hperm, hsame⟩ := h
  obtain ⟨hsector, hetf, hapart⟩ := uniqueAndDisjoint_eq_ok.mp hok
  have hsectors : middle.map (·.sector) = sectors'.map (·.sector) := Forall₂.map_eq hsame fun _ _ h => h.sector
  have hetfs : middle.map (·.etf) = sectors'.map (·.etf) := Forall₂.map_eq hsame fun _ _ h => h.etf
  refine uniqueAndDisjoint_eq_ok.mpr ⟨?_, ?_, ?_⟩
  · rw [← hsectors]
    exact (hperm.map _).nodup_iff.mp hsector
  · rw [← hetfs]
    exact (hperm.map _).nodup_iff.mp hetf
  · exact (Spans.pairwise_apart_perm ((listedSpans_perm hperm).trans (listedSpans_forall₂ hsame))).mp hapart

/-- Every entry is there in the other listing. -/
theorem Relisted.exists_same (h : Relisted sectors sectors') (he : e ∈ sectors) : ∃ e' ∈ sectors', SameEntry e e' := by
  obtain ⟨middle, hperm, hsame⟩ := h
  exact Forall₂.exists_of_mem_left hsame (hperm.mem_iff.mp he)

theorem Relisted.exists_same' (h : Relisted sectors sectors') (he : e' ∈ sectors') : ∃ e ∈ sectors, SameEntry e e' := by
  obtain ⟨middle, hperm, hsame⟩ := h
  obtain ⟨e, hmem, hentry⟩ := Forall₂.exists_of_mem_right hsame he
  exact ⟨e, hperm.mem_iff.mpr hmem, hentry⟩

end Relisted

namespace SectorsConfig

/-- A code is in the ranges of one entry at most. -/
theorem eq_of_holds (self : SectorsConfig) {sic : Int} {e e' : SectorEntry} (he : e ∈ self.sectors)
    (he' : e' ∈ self.sectors) (h : e.holds sic = true) (h' : e'.holds sic = true) : e = e' := by
  obtain ⟨hsector, -, hapart⟩ := uniqueAndDisjoint_eq_ok.mp self.unique_and_disjoint
  obtain ⟨r, hr, hholds⟩ := holds_iff.mp h
  obtain ⟨r', hr', hholds'⟩ := holds_iff.mp h'
  have hspan : ((r.1, r.2, e.sector) : SicSpan) ∈ listedSpans self.sectors := mem_listedSpans.mpr ⟨e, he, hr, rfl⟩
  have hspan' : ((r'.1, r'.2, e'.sector) : SicSpan) ∈ listedSpans self.sectors := mem_listedSpans.mpr ⟨e', he', hr', rfl⟩
  have hsame := Spans.eq_of_holds hapart hspan hspan' hholds hholds'
  have hname : e.sector = e'.sector := congrArg SicSpan.sector hsame
  exact List.inj_on_of_nodup_map hsector he he' hname

/-- The lookup finds the entry whose ranges hold the code, wherever it is listed. -/
theorem sectorForSic_eq_some (self : SectorsConfig) {sic : Int} {e : SectorEntry} :
    self.sectorForSic sic = some e ↔ e ∈ self.sectors ∧ e.holds sic = true := by
  unfold sectorForSic
  constructor
  · intro h
    have hholds := List.find?_some h
    exact ⟨List.mem_of_find?_eq_some h, hholds⟩
  · intro ⟨he, h⟩
    rcases hfind : self.sectors.find? (·.holds sic) with - | found
    · exact absurd h (List.find?_eq_none.mp hfind e he)
    · have hfound := List.find?_some hfind
      rw [hfind, self.eq_of_holds (List.mem_of_find?_eq_some hfind) he hfound h]

/-- In another listing the lookup finds the same sector and ETF. -/
theorem sectorForSic_relisted {self other : SectorsConfig} (h : Relisted self.sectors other.sectors) (sic : Int) :
    (other.sectorForSic sic).map (fun e => (e.sector, e.etf)) = (self.sectorForSic sic).map fun e => (e.sector, e.etf) := by
  rcases hself : self.sectorForSic sic with - | e
  · rcases hother : other.sectorForSic sic with - | e'
    · rfl
    · obtain ⟨he', hholds⟩ := other.sectorForSic_eq_some.mp hother
      obtain ⟨e, he, hsame⟩ := h.exists_same' he'
      have hfound : self.sectorForSic sic = some e :=
        self.sectorForSic_eq_some.mpr ⟨he, (hsame.holds_eq sic).trans hholds⟩
      rw [hself] at hfound
      cases hfound
  · obtain ⟨he, hholds⟩ := self.sectorForSic_eq_some.mp hself
    obtain ⟨e', he', hsame⟩ := h.exists_same he
    have hfound : other.sectorForSic sic = some e' :=
      other.sectorForSic_eq_some.mpr ⟨he', (hsame.holds_eq sic).symm.trans hholds⟩
    rw [hfound, Option.map_some, Option.map_some, hsame.sector, hsame.etf]

/-- A code falls in at most one range of at most one sector, and a configuration that lists the same sectors and ranges in
    other orders is admitted too and looks every code up alike. -/
theorem sectorForSic_any_order (self : SectorsConfig) :
    (∀ sic, ((listedSpans self.sectors).filter fun span => span.lo ≤ sic ∧ sic ≤ span.hi).length ≤ 1) ∧
    (∀ sic, ∀ e ∈ self.sectors, ∀ e' ∈ self.sectors, e.holds sic = true → e'.holds sic = true → e = e') ∧
    ∀ sectors', Relisted self.sectors sectors' → ∃ other : SectorsConfig, other.sectors = sectors' ∧
      ∀ sic, (other.sectorForSic sic).map (fun e => (e.sector, e.etf)) =
        (self.sectorForSic sic).map fun e => (e.sector, e.etf) := by
  refine ⟨fun sic => ?_, fun sic e he e' he' h h' => self.eq_of_holds he he' h h', fun sectors' h => ?_⟩
  · obtain ⟨-, -, hapart⟩ := uniqueAndDisjoint_eq_ok.mp self.unique_and_disjoint
    refine Spans.length_filter_holds_le hapart (x := sic) fun span hspan => ?_
    simpa [Spans.Holds] using hspan
  · obtain ⟨middle, hperm, hsame⟩ := id h
    have hlen : 1 ≤ sectors'.length := by
      rw [← hsame.length_eq, ← hperm.length_eq]
      exact self.sectors_nonempty
    exact ⟨⟨self.confirmed, sectors', hlen, h.uniqueAndDisjoint self.unique_and_disjoint⟩, rfl, sectorForSic_relisted h⟩

/-- Two sectors, one with a range on each side of the other's. -/
def twoSectors : List SectorEntry :=
  [⟨"Energy", "XLE", [(2900, 2999), (1300, 1399)], by decide, by decide, by decide, by rfl⟩,
    ⟨"Materials", "XLB", [(1400, 1499)], by decide, by decide, by decide, by rfl⟩]

/-- The same two in the other order, with the first one's ranges turned round. -/
def twoSectorsTurned : List SectorEntry :=
  [⟨"Materials", "XLB", [(1400, 1499)], by decide, by decide, by decide, by rfl⟩,
    ⟨"Energy", "XLE", [(1300, 1399), (2900, 2999)], by decide, by decide, by decide, by rfl⟩]

theorem sectorForSic_turned :
    ∃ self other : SectorsConfig, self.sectors = twoSectors ∧ other.sectors = twoSectorsTurned ∧
      (other.sectorForSic 1350).map (fun e => (e.sector, e.etf)) = (self.sectorForSic 1350).map fun e => (e.sector, e.etf) := by
  let self : SectorsConfig := ⟨true, twoSectors, by decide, by rfl⟩
  have hsame : List.Forall₂ SameEntry twoSectors.reverse twoSectorsTurned :=
    .cons ⟨rfl, rfl, List.Perm.refl _⟩ (.cons ⟨rfl, rfl, List.Perm.swap _ _ _⟩ .nil)
  obtain ⟨other, hother, hlookup⟩ := self.sectorForSic_any_order.2.2 twoSectorsTurned
    ⟨twoSectors.reverse, (List.reverse_perm _).symm, hsame⟩
  exact ⟨self, other, rfl, hother, hlookup 1350⟩

end SectorsConfig
end AsymmetricCommittee
