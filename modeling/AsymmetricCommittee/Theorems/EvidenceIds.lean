import AsymmetricCommittee.Lib.TextLines
import AsymmetricCommittee.Theorems.QuarterlyHistory

/-! The evidence ids of a partition: they are read back from the finished text, and they are those of the rows that the
    builders wrote. -/

namespace AsymmetricCommittee
namespace Partitions
open Renderer PyText

/-- The evidence ids that the lines of a text begin with, in their order. -/
def rowIds (text : String) : List (FeedName × String) := (lines text).filterMap evidenceId

theorem evidence_eq (text : String) : evidence text = (rowIds text).toFinset := rfl

/-- A character of a word. -/
def isWord (c : Char) : Bool := ('A' ≤ c && c ≤ 'Z') || ('a' ≤ c && c ≤ 'z') || ('0' ≤ c && c ≤ '9') || c = '_'

/-! ### What a row is called -/

inductive RowKind where
  | summary
  | quarter
  | trade
  | news
  | technical
  | regime
  | price
  deriving DecidableEq

namespace RowKind

def feed : RowKind → FeedName
  | .summary | .quarter => .fundamentals
  | .trade => .insiderTrades
  | .news => .news
  | .technical => .features
  | .regime | .price => .regime

/-- What stands before the number. -/
def start : RowKind → String
  | .summary => "FIN_SUM_"
  | .quarter => "FIN_Q"
  | .trade => "INS_"
  | .news => "NEWS_"
  | .technical => "TECH_"
  | .regime => "MACRO_R_"
  | .price => "MACRO_P_"

/-- It begins with the prefix of its feed. -/
theorem start_eq (k : RowKind) : ∃ feed ∈ evidenceFeed, feed.2 = k.feed ∧ ∃ name : String,
    name.toList.all isWord ∧ k.start = feed.1 ++ "_" ++ name := by
  cases k
  · exact ⟨("FIN", .fundamentals), by decide, rfl, "SUM_", by decide, by decide⟩
  · exact ⟨("FIN", .fundamentals), by decide, rfl, "Q", by decide, by decide⟩
  · exact ⟨("INS", .insiderTrades), by decide, rfl, "", by decide, by decide⟩
  · exact ⟨("NEWS", .news), by decide, rfl, "", by decide, by decide⟩
  · exact ⟨("TECH", .features), by decide, rfl, "", by decide, by decide⟩
  · exact ⟨("MACRO", .regime), by decide, rfl, "R_", by decide, by decide⟩
  · exact ⟨("MACRO", .regime), by decide, rfl, "P_", by decide, by decide⟩

theorem eq_of_start {k l : RowKind} (h : k.start.toList <+: l.start.toList) : k = l := by
  revert h
  cases k <;> cases l <;> decide

end RowKind

/-- A row that may be cited: its kind and its number. -/
structure RowKey where
  kind : RowKind
  number : Nat
  deriving DecidableEq

def RowKey.id (k : RowKey) : FeedName × String := (k.kind.feed, k.kind.start ++ toString k.number)

theorem RowKey.id_injective : Function.Injective RowKey.id := by
  rintro ⟨k, m⟩ ⟨l, n⟩ h
  have htext : k.start.toList ++ (toString m).toList = l.start.toList ++ (toString n).toList := by
    simpa only [RowKey.id, String.toList_append] using congrArg String.toList (congrArg Prod.snd h)
  have hk : k = l := by
    rcases List.prefix_or_prefix_of_prefix (htext ▸ List.prefix_append _ _) (List.prefix_append l.start.toList _) with hp | hp
    · exact RowKind.eq_of_start hp
    · exact (RowKind.eq_of_start hp).symm
  subst hk
  rw [toString_nat_injective (List.append_cancel_left htext)]

/-! ### The id of one line -/

/-- The id that a line carries for one feed. -/
def feedId (line : List Char) (feed : String × FeedName) : Option (FeedName × String) :=
  let start := (feed.1 ++ "_").toList
  let rest := line.drop start.length
  let word := rest.takeWhile isWord
  if start.isPrefixOf line && !word.isEmpty && (rest.drop word.length).head? = some '\t' then
    some (feed.2, String.ofList (start ++ word))
  else none

theorem evidenceId_eq (line : List Char) : evidenceId line = evidenceFeed.findSome? (feedId line) := rfl

theorem feeds_initial : ∀ feed ∈ evidenceFeed, ∃ c ∈ ['F', 'I', 'N', 'T', 'M'], feed.1.toList.head? = some c := by
  have hall : evidenceFeed.all (fun feed => ['F', 'I', 'N', 'T', 'M'].any fun c => feed.1.toList.head? = some c) = true := by
    decide
  simpa using hall

theorem initial_inj : ∀ a ∈ evidenceFeed, ∀ b ∈ evidenceFeed, a ≠ b → a.1.toList.head? ≠ b.1.toList.head? := by
  decide

/-- The prefix of a feed is told by its initial. -/
theorem initial_of_start {feed : String × FeedName} (hfeed : feed ∈ evidenceFeed) {line : List Char}
    (h : (feed.1 ++ "_").toList.isPrefixOf line = true) : line.head? = feed.1.toList.head? := by
  obtain ⟨rest, rfl⟩ := List.isPrefixOf_iff_prefix.mp h
  obtain ⟨c, -, hc⟩ := feeds_initial feed hfeed
  obtain ⟨cs, hcs⟩ := List.head?_eq_some_iff.mp hc
  rw [String.toList_append, hcs]
  rfl

theorem feedId_none {feed : String × FeedName} (hfeed : feed ∈ evidenceFeed) {line : List Char}
    (h : line.head? ≠ feed.1.toList.head?) : feedId line feed = none := by
  have hstart := mt (initial_of_start hfeed) h
  simp only [feedId, Bool.not_eq_true _ ▸ hstart, Bool.false_and, Bool.false_eq_true, if_false]

/-- A line that begins with none of the feeds' initials carries no id. -/
theorem evidenceId_none {line : List Char} (h : ∀ c ∈ line.head?, c ∉ ['F', 'I', 'N', 'T', 'M']) :
    evidenceId line = none := by
  rw [evidenceId_eq, List.findSome?_eq_none_iff]
  intro feed hfeed
  obtain ⟨c, hc, hhead⟩ := feeds_initial feed hfeed
  refine feedId_none hfeed fun heq => ?_
  exact h c (by rw [heq, hhead]; rfl) hc

theorem findSome?_of_unique {α β : Type*} {f : α → Option β} {l : List α} {a : α} {b : β} (hmem : a ∈ l) (ha : f a = some b)
    (hother : ∀ x ∈ l, x ≠ a → f x = none) : l.findSome? f = some b := by
  induction l with
  | nil => cases hmem
  | cons x l ih =>
    rw [List.findSome?_cons]
    by_cases hx : x = a
    · rw [hx, ha]
    · rw [hother x List.mem_cons_self hx]
      rcases List.mem_cons.mp hmem with rfl | hmem
      · exact absurd rfl hx
      · exact ih hmem fun y hy => hother y (List.mem_cons_of_mem x hy)

/-- A line that begins with a feed's prefix, a word and a tab carries that id. -/
theorem evidenceId_some {feed : String × FeedName} (hfeed : feed ∈ evidenceFeed) {word : List Char}
    (hne : word ≠ []) (hword : ∀ c ∈ word, isWord c = true) (rest : List Char) :
    evidenceId ((feed.1 ++ "_").toList ++ (word ++ '\t' :: rest)) =
      some (feed.2, String.ofList ((feed.1 ++ "_").toList ++ word)) := by
  have htake : (word ++ '\t' :: rest).takeWhile isWord = word := by
    rw [List.takeWhile_append_of_pos hword, List.takeWhile_cons_of_neg (by decide), List.append_nil]
  have hhead := initial_of_start hfeed (List.isPrefixOf_iff_prefix.mpr (List.prefix_append _ (word ++ '\t' :: rest)))
  rw [evidenceId_eq]
  refine findSome?_of_unique hfeed ?_ fun other hmem hne => ?_
  · simp [feedId, htake, hne]
  · exact feedId_none hmem (hhead ▸ (initial_inj other hmem feed hfeed hne).symm)

/-- The row of a key carries its id. -/
theorem evidenceId_row (k : RowKey) (rest : List Char) : evidenceId (k.id.2.toList ++ '\t' :: rest) = some k.id := by
  obtain ⟨feed, hfeed, hkind, name, hname, hstart⟩ := RowKind.start_eq k.kind
  have hdigits : ∀ c ∈ (toString k.number).toList, isWord c = true := by
    intro c hc
    rw [Nat.toString_eq_ofList_toDigits, String.toList_ofList] at hc
    have hdigit := Nat.isDigit_of_mem_toDigits (by decide) (by decide) hc
    simp only [Char.isDigit, Bool.and_eq_true, decide_eq_true_eq] at hdigit
    simp only [isWord, Bool.or_eq_true, Bool.and_eq_true, decide_eq_true_eq]
    exact Or.inl (Or.inr hdigit)
  have hword : ∀ c ∈ name.toList ++ (toString k.number).toList, isWord c = true := by
    intro c hc
    rcases List.mem_append.mp hc with hc | hc
    · exact List.all_eq_true.mp hname c hc
    · exact hdigits c hc
  have hne : name.toList ++ (toString k.number).toList ≠ [] := by
    rw [Nat.toString_eq_ofList_toDigits, String.toList_ofList]
    exact List.append_ne_nil_of_right_ne_nil _ Nat.toDigits_ne_nil
  have hid : k.id.2.toList = (feed.1 ++ "_").toList ++ (name.toList ++ (toString k.number).toList) := by
    rw [RowKey.id, hstart, String.toList_append, String.toList_append, List.append_assoc]
  rw [hid, List.append_assoc, evidenceId_some hfeed hne hword, ← hid, String.ofList_toList, hkind]
  rfl

/-! ### The ids of a text -/

theorem rowIds_oneLine {line : String} (h : OneLine line) : rowIds line = (evidenceId line.toList).toList := by
  rw [rowIds, lines_of_oneLine h]
  cases hid : evidenceId line.toList <;> simp [hid]

/-- A line of another kind carries no id. -/
theorem rowIds_none {line : String} (h : OneLine line) (hinitial : ∀ c ∈ line.toList.head?, c ∉ ['F', 'I', 'N', 'T', 'M']) :
    rowIds line = [] := by
  rw [rowIds_oneLine h, evidenceId_none hinitial]
  rfl

theorem rowIds_append (a b : String) : rowIds (a ++ "\n" ++ b) = rowIds a ++ rowIds b := by
  rw [rowIds, lines_append_newline, List.filterMap_append]
  rfl

theorem rowIds_joinLines {rows : List String} (h : rows ≠ []) : rowIds (joinLines rows) = rows.flatMap rowIds := by
  rw [rowIds, joinLines, lines_intercalate h, List.filterMap_flatMap]
  rfl

/-- The ids of a table are those of its rows. -/
theorem rowIds_table {head : String} (hhead : rowIds head = []) (rows : List String) :
    rowIds (joinLines (head :: rows)) = rows.flatMap rowIds := by
  rw [rowIds_joinLines (List.cons_ne_nil head rows), List.flatMap_cons, hhead, List.nil_append]

theorem rowIds_section {title : String} (h : OneLine title) (body : String) : rowIds (makeSection title body) = rowIds body := by
  have htitle : rowIds ("## " ++ title) = [] := by
    refine rowIds_none (oneLine_append.mpr ⟨by decide, h⟩) fun c hc => ?_
    rw [String.toList_append] at hc
    cases hc
    decide
  rw [makeSection, rowIds_append, htitle, List.nil_append]

/-- Between two sections stands an empty line. -/
theorem rowIds_sections (sections : List String) :
    rowIds (String.intercalate "\n\n" sections) = sections.flatMap rowIds := by
  have hempty : rowIds "" = [] := rowIds_none oneLine_empty (by simp)
  induction sections with
  | nil => simpa using hempty
  | cons s rest ih =>
    cases rest with
    | nil => simp
    | cons t rest =>
      have hbreak : ("\n\n" : String) = "\n" ++ "" ++ "\n" := by decide
      rw [String.intercalate_cons_cons, List.flatMap_cons, ← ih]
      have hsplit : s ++ "\n\n" ++ String.intercalate "\n\n" (t :: rest) =
          s ++ "\n" ++ "" ++ "\n" ++ String.intercalate "\n\n" (t :: rest) := by
        rw [hbreak]
        simp only [String.append_assoc]
      rw [hsplit, rowIds_append, String.append_empty, show s ++ "\n" = s ++ "\n" ++ "" by simp, rowIds_append, hempty,
        List.append_nil]

theorem oneLine_id (k : RowKey) : OneLine k.id.2 := by
  refine oneLine_append.mpr ⟨?_, oneLine_nat _⟩
  cases k.kind <;> decide

theorem oneLine_row {cells : List String} (h : ∀ cell ∈ cells, OneLine cell) : OneLine (row cells) :=
  oneLine_intercalate (by decide) h

/-- The row of a key, whatever its cells are, as long as they end no line. -/
theorem rowIds_row (k : RowKey) {cells : List String} (hne : cells ≠ []) (h : ∀ cell ∈ cells, OneLine cell) :
    rowIds (row (k.id.2 :: cells)) = [k.id] := by
  obtain ⟨cell, rest, rfl⟩ := List.exists_cons_of_ne_nil hne
  have hline : OneLine (row (k.id.2 :: cell :: rest)) := oneLine_row (by
    rintro c (_ | ⟨_, hc⟩)
    · exact oneLine_id k
    · exact h c hc)
  have htab : (row (k.id.2 :: cell :: rest)).toList = k.id.2.toList ++ '\t' :: (row (cell :: rest)).toList := by
    rw [row, String.intercalate_cons_cons, String.toList_append, String.toList_append, List.append_assoc]
    rfl
  rw [rowIds_oneLine hline, htab, evidenceId_row]
  rfl

/-- Numbered from 0. -/
theorem map_zipIdx_snd {α β : Type} (l : List α) (f : Nat → β) :
    (l.zipIdx.map fun x => f x.2) = (List.range l.length).map f := by
  rw [List.range_eq_range', ← List.zipIdx_map_snd 0 l, List.map_map]
  rfl

theorem rowIds_map {α : Type} {f : α → String} {l : List α} (key : α → RowKey)
    (h : ∀ a ∈ l, rowIds (f a) = [(key a).id]) : (l.map f).flatMap rowIds = l.map fun a => (key a).id := by
  rw [List.flatMap_map, List.flatMap_congr h, List.map_eq_flatMap]

/-- The rows of a traversal carry the ids of what was traversed. -/
theorem rowIds_mapM {α : Type} {f : α → Except RenderError String} {l : List α} {rows : List String} (key : α → RowKey)
    (h : l.mapM f = .ok rows) (hrow : ∀ a ∈ l, ∀ r, f a = .ok r → rowIds r = [(key a).id]) :
    rows.flatMap rowIds = l.map fun a => (key a).id := by
  have hpairs := Except.mapM_eq_ok.mp h
  clear h
  induction hpairs with
  | nil => rfl
  | @cons a r l rows hr _ ih =>
    rw [List.flatMap_cons, hrow a List.mem_cons_self r hr, ih fun b hb => hrow b (List.mem_cons_of_mem a hb)]
    rfl

/-! ### Cells -/

/-- A number is written on one line. -/
def NumbersOneLine {K : Type} (fl : PyFloat K) : Prop := ∀ x, OneLine (fl.format2g x)

/-- A digest is written in hexadecimal digits, which stay such in capitals. -/
structure HexDigests (py : PyText) : Prop where
  digest : ∀ text, ∀ c ∈ (py.sha256 text).toList, c ∈ "0123456789abcdef".toList
  upper : ∀ text, (∀ c ∈ text.toList, c ∈ "0123456789abcdef".toList) → OneLine (py.upper text)

theorem HexDigests.personToken {py : PyText} (h : HexDigests py) (name : String) (cik : Int) :
    OneLine (Partitioner.personToken py name cik) := by
  refine oneLine_append.mpr ⟨by decide, h.upper _ fun c hc => ?_⟩
  rw [slice, String.toList_ofList] at hc
  exact h.digest _ c (List.mem_of_mem_take hc)

section Cells
variable {K : Type} [Field K] [LinearOrder K] {fl : PyFloat K} {py : PyText} {asOf : AwareDatetime}

theorem oneLine_sig2 (hfl : NumbersOneLine fl) {value : K} {text : String} (h : sig2 fl value = .ok text) :
    OneLine text := by
  rw [sig2] at h
  split at h
  · cases h
  · split at h
    · cases h
      decide
    · cases h
      exact hfl value

theorem oneLine_score (hfl : NumbersOneLine fl) {value : Option K} {text : String} (h : score fl value = .ok text) :
    OneLine text := by
  cases value with
  | none =>
    cases h
    decide
  | some value => exact oneLine_sig2 hfl h

theorem oneLine_cell (hfl : NumbersOneLine fl) {value : Option K} {text : String} (h : cell fl value = .ok text) :
    OneLine text := by
  cases value with
  | none =>
    cases h
    decide
  | some value =>
    rw [cell] at h
    split at h
    · cases h
      decide
    · exact oneLine_sig2 hfl h

theorem oneLine_relativeDays {ts : AwareDatetime} {text : String} (h : relativeDays ts asOf = .ok text) : OneLine text := by
  rw [relativeDays] at h
  split at h
  · cases h
  · cases h
    simp only [oneLine_append]
    exact ⟨⟨by decide, oneLine_int _⟩, by decide⟩

theorem oneLine_featureLine [FloorRing K] (hfl : NumbersOneLine fl) {r : FeatureRow K} {world : List (FeatureRow K)}
    {sectors : Dict SecurityId String} {name : String} {kind : Kind} (hname : OneLine name) {text : String}
    (h : featureLine fl r world sectors name kind = .ok text) : OneLine text := by
  have hna : OneLine notAvailable := by decide
  unfold featureLine at h
  split at h
  · cases h
    exact oneLine_row (by simp [hname, hna])
  · cases h
    exact oneLine_row (by simp [hname, hna])
  · cases h
    exact oneLine_row (by simpa [hname] using oneLine_int _)
  · cases h
    exact oneLine_row (by simpa [hname] using oneLine_int _)
  · obtain ⟨cell, hcell, h⟩ := Except.bind_eq_ok.mp h
    cases h
    exact oneLine_row (by simp [hname, oneLine_sig2 hfl hcell])
  · obtain ⟨cell, hcell, h⟩ := Except.bind_eq_ok.mp h
    obtain ⟨z, hz, h⟩ := Except.bind_eq_ok.mp h
    obtain ⟨pct, hpct, h⟩ := Except.bind_eq_ok.mp h
    cases h
    exact oneLine_row (by simp [hname, oneLine_sig2 hfl hcell, oneLine_score hfl hz, oneLine_score hfl hpct])

/-! ### Tables -/

/-- The rows of a table of features are numbered from 1. -/
theorem rowIds_renderFeatures [FloorRing K] (hfl : NumbersOneLine fl) {r : FeatureRow K} {world : List (FeatureRow K)}
    {sectors : Dict SecurityId String} {names : List String} (hnames : ∀ name ∈ names, OneLine name) {kind : RowKind}
    {evidencePrefix : String} (hbefore : evidencePrefix ++ "_" = kind.start) {table : String}
    (h : renderFeatures fl r world sectors names (some evidencePrefix) = .ok table) :
    rowIds table = (List.range names.length).map fun n => RowKey.id ⟨kind, n + 1⟩ := by
  rw [renderFeatures] at h
  split at h
  · cases h
  · split at h
    · cases h
    · obtain ⟨lines, hlines, h⟩ := Except.bind_eq_ok.mp h
      cases h
      have hpairs := Except.mapM_eq_ok.mp hlines
      have hone : ∀ line ∈ lines, OneLine line := by
        intro line hline
        obtain ⟨name, hname, hok⟩ := Forall₂.exists_of_mem_right hpairs hline
        exact oneLine_featureLine hfl (hnames name hname) hok
      have hhead : rowIds (row ["evidence_id", header]) = [] := by decide
      rw [rowIds_table hhead, numbered, hpairs.length_eq]
      have hrow : ∀ x ∈ lines.zipIdx, rowIds (row [evidencePrefix ++ "_" ++ toString (x.2 + 1), x.1]) =
          [RowKey.id ⟨kind, x.2 + 1⟩] := by
        intro x hx
        rw [hbefore]
        refine rowIds_row ⟨kind, x.2 + 1⟩ (List.cons_ne_nil x.1 []) fun cell hcell => ?_
        rw [List.mem_singleton.mp hcell]
        exact hone x.1 (List.fst_mem_of_mem_zipIdx hx)
      rw [rowIds_map (fun x => ⟨kind, x.2 + 1⟩) hrow]
      exact map_zipIdx_snd lines fun n => RowKey.id ⟨kind, n + 1⟩

/-- The number in the label of a period end. -/
def quarterNumber (asOf : AwareDatetime) (pe : Date) : Nat := (max 1 (quarter (dateOf asOf) - quarter pe)).toNat

/-- A period end has a label: it is not after `asOf`, and not too old. -/
def Labelled (asOf : AwareDatetime) (pe : Date) : Prop :=
  pe ≤ dateOf asOf ∧ quarter (dateOf asOf) - quarter pe ≤ maxFiscalIndex

instance (asOf : AwareDatetime) (pe : Date) : Decidable (Labelled asOf pe) := inferInstanceAs (Decidable (_ ∧ _))

omit [Field K] [LinearOrder K] in
theorem fiscalIndex_of_labelled {pe : Date} (h : Labelled asOf pe) :
    fiscalIndex pe asOf = .ok ("Q-" ++ toString (quarterNumber asOf pe)) := by
  have hmax : ¬maxFiscalIndex < max 1 (quarter (dateOf asOf) - quarter pe) :=
    not_lt.mpr (max_le (by decide) h.2)
  have hnat : ((quarterNumber asOf pe : Nat) : Int) = max 1 (quarter (dateOf asOf) - quarter pe) :=
    Int.toNat_of_nonneg (le_trans (by decide) (le_max_left _ _))
  rw [fiscalIndex, if_neg (not_lt.mpr h.1)]
  dsimp only
  rw [if_neg hmax, ← hnat]
  rfl

omit [Field K] [LinearOrder K] in
theorem fiscalIndex_of_not_labelled {pe : Date} (h : ¬Labelled asOf pe) : ∃ e, fiscalIndex pe asOf = .error e := by
  rw [fiscalIndex]
  dsimp only
  split
  · exact ⟨_, rfl⟩
  · next hlate =>
    have hold : maxFiscalIndex < quarter (dateOf asOf) - quarter pe := lt_of_not_ge fun hge => h ⟨not_lt.mp hlate, hge⟩
    rw [if_pos (lt_max_of_lt_right hold)]
    exact ⟨_, rfl⟩

/-- The period ends of the history, the newest first. -/
def historyEnds (facts : List (FundamentalFact K)) (asOf : AwareDatetime) : List Date :=
  (((series (latestFacts facts asOf) "revenue").keys.insertionSort (· ≥ ·)).filter (Labelled asOf)).take maxQuarters

theorem filterMap_eq_map_filter {α β γ : Type} {f : α → Option β} {g : β → γ} {keep : α → Bool} {label : α → γ}
    (hkeep : ∀ a, keep a = true → (f a).map g = some (label a)) (hdrop : ∀ a, keep a = false → f a = none) (l : List α) :
    (l.filterMap f).map g = (l.filter keep).map label := by
  induction l with
  | nil => rfl
  | cons a l ih =>
    cases hk : keep a with
    | false => rw [List.filterMap_cons_none (hdrop a hk), List.filter_cons_of_neg (by simp [hk]), ih]
    | true =>
      obtain ⟨b, hb, hg⟩ := Option.map_eq_some_iff.mp (hkeep a hk)
      rw [List.filterMap_cons_some hb, List.filter_cons_of_pos hk, List.map_cons, List.map_cons, ih, hg]

/-- The labels and the period ends of the history. -/
theorem quarterlyHistory_ends (facts : List (FundamentalFact K)) (asOf : AwareDatetime) :
    ((quarterlyHistory facts asOf).map fun q => (q.1, q.2.1)) =
      (historyEnds facts asOf).map fun pe => ("Q-" ++ toString (quarterNumber asOf pe), pe) := by
  rw [quarterlyHistory, List.map_take, historyEnds, List.map_take]
  congr 1
  refine filterMap_eq_map_filter (fun pe hpe => ?_) (fun pe hpe => ?_) _
  · dsimp only
    rw [fiscalIndex_of_labelled (of_decide_eq_true hpe)]
    rfl
  · obtain ⟨e, he⟩ := fiscalIndex_of_not_labelled (of_decide_eq_false hpe)
    dsimp only
    rw [he]

theorem remove_label (n : Nat) : "FIN_" ++ remove '-' ("Q-" ++ toString n) = "FIN_Q" ++ toString n := by
  have hdigits : (toString n).toList.filter (· ≠ '-') = (toString n).toList := by
    refine List.filter_eq_self.mpr fun c hc => decide_eq_true ?_
    rintro rfl
    rw [Nat.toString_eq_ofList_toDigits, String.toList_ofList] at hc
    exact absurd (Nat.isDigit_of_mem_toDigits (by decide) (by decide) hc) (by decide)
  have hstart : ("Q-" : String).toList.filter (· ≠ '-') = ("Q" : String).toList := by decide
  rw [remove, String.toList_append, List.filter_append, hstart, hdigits, ← String.toList_append, String.ofList_toList,
    ← String.append_assoc]
  rfl

theorem rowIds_historyTable (hfl : NumbersOneLine fl) {facts : List (FundamentalFact K)} {table : String}
    (h : historyTable fl facts asOf = .ok table) :
    rowIds table = (historyEnds facts asOf).map fun pe => RowKey.id ⟨.quarter, quarterNumber asOf pe⟩ := by
  obtain ⟨lines, hlines, h⟩ := Except.bind_eq_ok.mp h
  rw [← Except.ok.inj h]
  have hhead : rowIds (row (["evidence_id", "fiscal_period", "period_age"] ++ historyColumns)) = [] := by decide +kernel
  rw [rowIds_table hhead]
  have hends := quarterlyHistory_ends facts asOf
  have hlabel : ∀ q ∈ quarterlyHistory facts asOf, q.1 = "Q-" ++ toString (quarterNumber asOf q.2.1) := by
    intro q hq
    have hmem := List.mem_map_of_mem (f := fun q => (q.1, q.2.1)) hq
    rw [hends] at hmem
    obtain ⟨pe, -, heq⟩ := List.mem_map.mp hmem
    obtain ⟨h1, h2⟩ := Prod.mk.inj heq
    rw [← h1, ← h2]
  have hids := rowIds_mapM (fun q : String × Date × List (String × Option K) => ⟨.quarter, quarterNumber asOf q.2.1⟩) hlines
    (by
      intro q hq line hline
      obtain ⟨cells, hcells, hline⟩ := Except.bind_eq_ok.mp hline
      obtain ⟨age, hage, hline⟩ := Except.bind_eq_ok.mp hline
      rw [← Except.ok.inj hline, hlabel q hq, remove_label, List.cons_append]
      refine rowIds_row ⟨.quarter, quarterNumber asOf q.2.1⟩ (List.cons_ne_nil _ _) fun c hc => ?_
      simp only [List.cons_append, List.nil_append, List.mem_cons] at hc
      rcases hc with rfl | rfl | hc
      · exact oneLine_append.mpr ⟨by decide, oneLine_nat _⟩
      · exact oneLine_relativeDays hage
      · obtain ⟨column, -, hok⟩ := Forall₂.exists_of_mem_right (Except.mapM_eq_ok.mp hcells) hc
        exact oneLine_cell hfl hok)
  rw [hids]
  have hsnd := congrArg (List.map fun x => RowKey.id ⟨.quarter, quarterNumber asOf x.2⟩) hends
  rwa [List.map_map, List.map_map] at hsnd

/-! Insider trades. -/

theorem oneLine_roleToken (py : PyText) (t : InsiderTxn K) : OneLine (roleToken py t) := by
  rw [roleToken]
  repeat' split
  all_goals decide

theorem oneLine_direction (t : InsiderTxn K) : OneLine (direction t) := by
  have hcode : OneLine t.code.value := by cases t.code <;> decide
  rw [direction]
  split
  · decide
  · split
    · decide
    · exact oneLine_append.mpr ⟨by decide, hcode⟩

theorem oneLine_tradeTag (t : InsiderTxn K) (seen : List (InsiderTxn K)) : OneLine (tradeTag t seen) := by
  rw [tradeTag]
  dsimp only
  repeat' split
  all_goals decide

theorem rowIds_insiderLine (hfl : NumbersOneLine fl) (hpy : HexDigests py) {seen : List (InsiderTxn K)} {cik : Int}
    {adv30Usd : Option K} {n : Nat} {t : InsiderTxn K} {line : String}
    (h : insiderLine fl py seen cik adv30Usd asOf n t = .ok line) : rowIds line = [RowKey.id ⟨.trade, n⟩] := by
  obtain ⟨txnAge, htxn, h⟩ := Except.bind_eq_ok.mp h
  obtain ⟨filedAge, hfiled, h⟩ := Except.bind_eq_ok.mp h
  obtain ⟨change, hchange, h⟩ := Except.bind_eq_ok.mp h
  obtain ⟨intensity, hintensity, h⟩ := Except.bind_eq_ok.mp h
  rw [← Except.ok.inj h]
  have hcode : OneLine t.code.value := by cases t.code <;> decide
  have hflag (b : Bool) : OneLine (if b then "1" else "0") := by cases b <;> decide
  refine rowIds_row ⟨.trade, n⟩ (List.cons_ne_nil _ _) fun cell hcell => ?_
  simp only [List.mem_cons, List.not_mem_nil, or_false] at hcell
  rcases hcell with rfl | rfl | rfl | rfl | rfl | rfl | rfl | rfl | rfl | rfl | rfl | rfl
  · exact hpy.personToken _ _
  · exact oneLine_roleToken py t
  · exact oneLine_direction t
  · exact hcode
  · exact oneLine_relativeDays htxn
  · exact oneLine_relativeDays hfiled
  · exact oneLine_cell hfl hchange
  · exact oneLine_cell hfl hintensity
  · exact hflag _
  · exact oneLine_tradeTag t seen
  · split
    · exact oneLine_nat _
    · decide
  · exact hflag _

/-- The trades that are shown. -/
def recentTrades (txns : List (InsiderTxn K)) (asOf : AwareDatetime) : List (InsiderTxn K) :=
  (((visible (·.toFact) asOf txns).filter fun t =>
    0 ≤ dateOf asOf - t.txnDate && dateOf asOf - t.txnDate ≤ insiderLookbackDays).insertionSort
      fun a b => txnKey b ≤ txnKey a).take maxInsiderRows

theorem rowIds_insiderTable (hfl : NumbersOneLine fl) (hpy : HexDigests py) {txns : List (InsiderTxn K)} {cik : Int}
    {adv30Usd : Option K} {table : String} (h : insiderTable fl py txns cik adv30Usd asOf = .ok table) :
    rowIds table = (List.range (recentTrades txns asOf).length).map fun n => RowKey.id ⟨.trade, n + 1⟩ := by
  obtain ⟨lines, hlines, h⟩ := Except.bind_eq_ok.mp h
  rw [← Except.ok.inj h]
  have hhead : rowIds (row insiderColumns) = [] := by decide +kernel
  rw [rowIds_table hhead]
  have hids := rowIds_mapM (fun x : InsiderTxn K × Nat => ⟨.trade, x.2 + 1⟩) hlines
    fun x _ line hline => rowIds_insiderLine hfl hpy hline
  rw [hids]
  exact map_zipIdx_snd (recentTrades txns asOf) fun n => RowKey.id ⟨.trade, n + 1⟩

/-! News and the regime. -/

omit [Field K] [LinearOrder K] in
theorem rowIds_newsTable {news : List NewsItem} {securityId : SecurityId} {masker : AliasMasker} {table : String}
    (h : newsTable py news securityId asOf masker = .ok table) :
    rowIds table = (List.range (visibleNews py news securityId asOf).length).map fun n => RowKey.id ⟨.news, n + 1⟩ := by
  obtain ⟨lines, hlines, h⟩ := Except.bind_eq_ok.mp h
  rw [← Except.ok.inj h]
  have hhead : rowIds (row ["evidence_id", "age", "headline", "summary"]) = [] := by decide
  rw [rowIds_table hhead]
  have hids := rowIds_mapM (fun x : NewsItem × Nat => ⟨.news, x.2 + 1⟩) hlines (by
    intro x _ line hline
    obtain ⟨age, hage, hline⟩ := Except.bind_eq_ok.mp hline
    rw [← Except.ok.inj hline]
    -- whatever the masker and the scrubber leave, the blanks are squeezed after them
    refine rowIds_row ⟨.news, x.2 + 1⟩ (List.cons_ne_nil _ _) fun cell hcell => ?_
    simp only [List.mem_cons, List.not_mem_nil, or_false] at hcell
    rcases hcell with rfl | rfl | rfl
    · exact oneLine_relativeDays hage
    · exact oneLine_squeeze _
    · exact oneLine_slice (oneLine_squeeze _) _)
  rw [hids]
  exact map_zipIdx_snd (visibleNews py news securityId asOf) fun n => RowKey.id ⟨.news, n + 1⟩

/-- The numbers of the regime's features that are known. -/
def regimeNumbers (p : Partitioner K) : List Nat :=
  (regimeFeatures.zipIdx.filter fun x => (p.regime.get? x.1).isSome).map fun x => x.2 + 1

theorem rowIds_regimeTable (hfl : NumbersOneLine fl) {p : Partitioner K} {table : String}
    (h : p.regimeTable fl = .ok table) : rowIds table = (regimeNumbers p).map fun n => RowKey.id ⟨.regime, n⟩ := by
  obtain ⟨lines, hlines, h⟩ := Except.bind_eq_ok.mp h
  rw [← Except.ok.inj h]
  have hhead : rowIds (row ["evidence_id", "feature", "value"]) = [] := by decide
  rw [rowIds_table hhead]
  have hnames : ∀ name ∈ regimeFeatures, OneLine name := by decide
  have hids := rowIds_mapM (fun x : (String × Nat) × Option K => ⟨.regime, x.1.2 + 1⟩) hlines (by
    intro x hx line hline
    obtain ⟨value, hvalue, hline⟩ := Except.bind_eq_ok.mp hline
    rw [← Except.ok.inj hline]
    obtain ⟨name, hname, hget⟩ := List.mem_filterMap.mp hx
    obtain ⟨v, -, rfl⟩ := Option.map_eq_some_iff.mp hget
    refine rowIds_row ⟨.regime, name.2 + 1⟩ (List.cons_ne_nil _ _) fun cell hcell => ?_
    simp only [List.mem_cons, List.not_mem_nil, or_false] at hcell
    rcases hcell with rfl | rfl
    · exact hnames _ (List.fst_mem_of_mem_zipIdx hname)
    · exact oneLine_cell hfl hvalue)
  rw [hids, regimeNumbers, List.map_map]
  refine filterMap_eq_map_filter (fun x hx => ?_) (fun x hx => ?_) _
  · obtain ⟨v, hv⟩ := Option.isSome_iff_exists.mp hx
    rw [hv]
    rfl
  · have hnone : p.regime.get? x.1 = none := by simpa using hx
    rw [hnone]
    rfl

end Cells

end Partitions
end AsymmetricCommittee
