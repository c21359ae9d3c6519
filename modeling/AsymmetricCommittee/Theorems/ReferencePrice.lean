import AsymmetricCommittee.Execution.ReferenceRules
import AsymmetricCommittee.Contracts.Samples
import AsymmetricCommittee.Lib.Except
import Mathlib.Data.List.Dedup

/-! The resolved reference price is the consolidated last price, whatever the unknowns are. The resolver
    reads each instant of a session once, in three values; the rule it stands for is sequential, takes the
    trades one by one in any order that respects time, and decides every condition one way or the other. -/

namespace AsymmetricCommittee
namespace ReferenceRules
open TradeConditions Grouping

/-! ### The sequential consolidated-last rule -/

/-- How a trade's conditions turn out: it updates the last price always, never, only as the first, or as the
    first and otherwise depending on facts about the participant. -/
inductive Decided where
  | updates
  | never
  | ifFirst
  | ifFirstOr (facts : Bool)
  deriving DecidableEq, Repr

/-- The outcomes an eligibility leaves open: none for a decided one, the facts of note 3, and all of them
    for an unknown. -/
def Completes (e : Eligibility) (d : Decided) : Prop :=
  match e.status with
  | .eligible => d = .updates
  | .ineligible => d = .never
  | .conditional => if e.note3 then ∃ facts, d = .ifFirstOr facts else d = .ifFirst
  | .unknown => True

/-- One trade of the sequential rule on the last price so far. -/
def lastStep (last : Option (Positive ℚ)) (x : SipTrade × Decided) : Option (Positive ℚ) :=
  match x.2 with
  | .updates => some x.1.price
  | .never => last
  | .ifFirst => if last.isSome then last else some x.1.price
  | .ifFirstOr facts => if last.isSome && !facts then last else some x.1.price

/-- The last price after a session's trades in order. -/
def lastPrice (xs : List (SipTrade × Decided)) : Option (Positive ℚ) := xs.foldl lastStep none

/-- An arrangement of a list of trades: an order that respects time, with every condition decided. -/
structure Arranges (pmap : ProviderCodeMap) (trades : List SipTrade) (xs : List (SipTrade × Decided)) : Prop where
  perm : (xs.map Prod.fst).Perm trades
  ordered : xs.Pairwise fun x y => tradeTime x.1 ≤ tradeTime y.1
  decided : ∀ x ∈ xs, Completes (evaluate pmap x.1) x.2

/-! ### The verdict on one trade -/

section Verdicts
variable (pmap : ProviderCodeMap)

/-- The trade may update the last price. -/
def contested (t : SipTrade) : Bool := decide ((evaluate pmap t).status ≠ .ineligible)

/-- The verdict on a trade, from what the earlier instants left and whether its instant is contested by
    another trade. -/
def verdictOf (seenQualifying seenUnknown tied : Bool) (t : SipTrade) : Verdict :=
  let b := evaluate pmap t
  match b.status with
  | .eligible => ⟨t, .qualifies, none⟩
  | .ineligible => ⟨t, .not, none⟩
  | .unknown => ⟨t, .unknown, b.reason⟩
  | .conditional =>
    if seenQualifying then if b.note3 then ⟨t, .unknown, some .unknownCondition⟩ else ⟨t, .not, none⟩
    else if tied then ⟨t, .unknown, some .ambiguousOrder⟩
    else if seenUnknown then ⟨t, .unknown, some .unknownCondition⟩
    else ⟨t, .qualifies, none⟩

/-- The instant is contested: two of its trades may update the last price. -/
def tiedGroup (group : List SipTrade) : Bool := decide (2 ≤ group.countP (contested pmap))

theorem exists_other {α : Type} (p : α → Bool) (l : List α) (i : Nat) (hi : i < l.length) (hp : p l[i] = true) :
    (∃ j, ∃ hj : j < l.length, p l[j] = true ∧ j ≠ i) ↔ 2 ≤ l.countP p := by
  have hsplit : l.countP p = (l.take i).countP p + 1 + (l.drop (i + 1)).countP p := by
    conv_lhs => rw [← List.take_append_drop i l, List.drop_eq_getElem_cons hi]
    rw [List.countP_append, List.countP_cons_of_pos hp]
    omega
  constructor
  · rintro ⟨j, hj, hpj, hne⟩
    rcases Nat.lt_or_gt_of_ne hne with hlt | hgt
    · have hmem : l[j] ∈ l.take i := List.mem_take_iff_getElem.mpr ⟨j, by omega, rfl⟩
      have := List.countP_pos_iff.mpr ⟨_, hmem, hpj⟩
      omega
    · have hmem : l[j] ∈ l.drop (i + 1) :=
        List.mem_drop_iff_getElem.mpr ⟨j - (i + 1), by omega, by congr 1; omega⟩
      have := List.countP_pos_iff.mpr ⟨_, hmem, hpj⟩
      omega
  · intro h
    rcases Nat.eq_zero_or_pos ((l.take i).countP p) with hzero | hpos
    · have hpos : 0 < (l.drop (i + 1)).countP p := by omega
      obtain ⟨a, ha, hpa⟩ := List.countP_pos_iff.mp hpos
      obtain ⟨j, hj, rfl⟩ := List.mem_drop_iff_getElem.mp ha
      exact ⟨i + 1 + j, by omega, hpa, by omega⟩
    · obtain ⟨a, ha, hpa⟩ := List.countP_pos_iff.mp hpos
      obtain ⟨j, hj, rfl⟩ := List.mem_take_iff_getElem.mp ha
      exact ⟨j, by omega, hpa, by omega⟩

/-- The resolver's indexed verdicts are the verdicts of the trades, one by one. -/
theorem groupVerdicts_eq (seenQualifying seenUnknown : Bool) (group : List SipTrade) :
    groupVerdicts pmap seenQualifying seenUnknown group =
      group.map (verdictOf pmap seenQualifying seenUnknown (tiedGroup pmap group)) := by
  refine List.ext_getElem (by simp [groupVerdicts]) fun i h1 h2 => ?_
  have hi : i < group.length := by simpa using h2
  simp only [groupVerdicts, verdictOf, List.getElem_map, List.getElem_zipIdx, List.getElem_zip, Nat.zero_add]
  cases hstatus : (evaluate pmap group[i]).status with
  | eligible => rfl
  | ineligible => rfl
  | unknown => rfl
  | conditional =>
    have htied : ((group.map (evaluate pmap)).zipIdx.any fun o => decide (o.1.status ≠ .ineligible ∧ o.2 ≠ i)) =
        tiedGroup pmap group := by
      rw [Bool.eq_iff_iff, List.any_eq_true, tiedGroup, decide_eq_true_eq,
        ← exists_other (contested pmap) group i hi (by simp [contested, hstatus])]
      constructor
      · rintro ⟨⟨e, j⟩, hmem, hprop⟩
        obtain ⟨hne, hji⟩ := of_decide_eq_true hprop
        obtain ⟨hj, hget⟩ := List.mem_zipIdx_iff_getElem?.mp hmem |> List.getElem?_eq_some_iff.mp
        rw [List.length_map] at hj
        rw [List.getElem_map] at hget
        exact ⟨j, hj, by rw [contested, hget]; exact decide_eq_true hne, hji⟩
      · rintro ⟨j, hj, hpj, hji⟩
        refine ⟨(evaluate pmap group[j], j), ?_, decide_eq_true ⟨of_decide_eq_true hpj, hji⟩⟩
        rw [List.mem_zipIdx_iff_getElem?, List.getElem?_map, List.getElem?_eq_getElem hj]
        rfl
    simp only [htied]

end Verdicts

/-! ### What one trade and one instant do to the last price -/

section Runs
variable {pmap : ProviderCodeMap} {q u tied : Bool} {last : Option (Positive ℚ)}

theorem lastStep_isSome (h : last.isSome) (x : SipTrade × Decided) : (lastStep last x).isSome := by
  unfold lastStep
  split
  · rfl
  · exact h
  · rw [if_pos h]
    exact h
  · split
    · exact h
    · rfl

theorem foldl_isSome (h : last.isSome) (xs : List (SipTrade × Decided)) : (xs.foldl lastStep last).isSome := by
  induction xs generalizing last with
  | nil => exact h
  | cons x xs ih => exact ih (lastStep_isSome h x)

theorem lastStep_uncontested {x : SipTrade × Decided} (hd : Completes (evaluate pmap x.1) x.2)
    (hx : contested pmap x.1 = false) : lastStep last x = last := by
  have hstatus : (evaluate pmap x.1).status = .ineligible := by
    by_contra hne
    rw [contested, decide_eq_true hne] at hx
    cases hx
  rw [Completes, hstatus] at hd
  rw [lastStep, hd]

/-- A settled verdict says what the trade does, however the unknowns are decided: the resolver saw a
    qualifying trade only if there is a last price, and calls a trade the first only if there is none. -/
theorem lastStep_of_verdict (last : Option (Positive ℚ)) {x : SipTrade × Decided} (hd : Completes (evaluate pmap x.1) x.2)
    (hq : q = true → last.isSome)
    (hfirst : q = false → tied = false → u = false → contested pmap x.1 = true → last = none) :
    ((verdictOf pmap q u tied x.1).kind = .qualifies → lastStep last x = some x.1.price) ∧
      ((verdictOf pmap q u tied x.1).kind = .not → lastStep last x = last) := by
  cases hstatus : (evaluate pmap x.1).status with
  | eligible =>
    simp only [Completes, hstatus] at hd
    simp only [verdictOf, hstatus]
    exact ⟨fun _ => by rw [lastStep, hd], nofun⟩
  | ineligible =>
    simp only [Completes, hstatus] at hd
    simp only [verdictOf, hstatus]
    exact ⟨nofun, fun _ => by rw [lastStep, hd]⟩
  | unknown =>
    simp only [verdictOf, hstatus]
    exact ⟨nofun, nofun⟩
  | conditional =>
    simp only [Completes, hstatus] at hd
    simp only [verdictOf, hstatus]
    cases q with
    | true =>
      by_cases hnote : (evaluate pmap x.1).note3 = true
      · rw [if_pos rfl, if_pos hnote]
        exact ⟨nofun, nofun⟩
      · -- not the first: the condition does not let it update
        rw [if_neg hnote] at hd
        rw [if_pos rfl, if_neg hnote]
        refine ⟨nofun, fun _ => ?_⟩
        rw [lastStep, hd]
        exact if_pos (hq rfl)
    | false =>
      cases tied with
      | true => exact ⟨nofun, nofun⟩
      | false =>
        cases u with
        | true => exact ⟨nofun, nofun⟩
        | false =>
          -- the first that may update: it does, under either condition
          have hnone := hfirst rfl rfl rfl (by simp [contested, hstatus])
          refine ⟨fun _ => ?_, nofun⟩
          split at hd
          · obtain ⟨facts, hfacts⟩ := hd
            rw [lastStep, hfacts, hnone]
            rfl
          · rw [lastStep, hd, hnone]
            rfl

/-- One instant, its trades in any order and decided in any way: a qualifying verdict leaves a last price,
    and when no verdict is unknown the last price is that of a qualifying trade, or unchanged without one. -/
theorem instant_run (tied : Bool) (last : Option (Positive ℚ)) {xs : List (SipTrade × Decided)} (hd : ∀ x ∈ xs, Completes (evaluate pmap x.1) x.2)
    (hq : q = true → last.isSome)
    (hfirst : q = false → tied = false → u = false → 0 < xs.countP (fun x => contested pmap x.1) → last = none)
    (htied : tied = false → xs.countP (fun x => contested pmap x.1) ≤ 1) :
    ((∃ x ∈ xs, (verdictOf pmap q u tied x.1).kind = .qualifies) → (xs.foldl lastStep last).isSome) ∧
      ((∀ x ∈ xs, (verdictOf pmap q u tied x.1).kind ≠ .unknown) →
        ((∀ x ∈ xs, (verdictOf pmap q u tied x.1).kind ≠ .qualifies) ∧ xs.foldl lastStep last = last) ∨
        ∃ x ∈ xs, (verdictOf pmap q u tied x.1).kind = .qualifies ∧ xs.foldl lastStep last = some x.1.price) := by
  induction xs generalizing last with
  | nil => exact ⟨fun ⟨_, hx, _⟩ => absurd hx List.not_mem_nil, fun _ => Or.inl ⟨fun _ hx => absurd hx List.not_mem_nil, rfl⟩⟩
  | cons x xs ih =>
    have hdx := hd x List.mem_cons_self
    obtain ⟨hqual, hnot⟩ := lastStep_of_verdict (q := q) (u := u) last hdx hq fun h1 h2 h3 hc => by
      exact hfirst h1 h2 h3 (List.countP_pos_iff.mpr ⟨x, List.mem_cons_self, hc⟩)
    have hq' : q = true → (lastStep last x).isSome := fun h => lastStep_isSome (hq h) x
    have hcount : xs.countP (fun x => contested pmap x.1) ≤ (x :: xs).countP (fun x => contested pmap x.1) :=
      List.Sublist.countP_le (List.sublist_cons_self x xs)
    have hfirst' : q = false → tied = false → u = false → 0 < xs.countP (fun x => contested pmap x.1) →
        lastStep last x = none := fun h1 h2 h3 hpos => by
      cases hc : contested pmap x.1 with
      | false =>
        rw [lastStep_uncontested hdx hc]
        exact hfirst h1 h2 h3 (by omega)
      | true =>
        -- an uncontested instant holds one trade that may update
        have hle := htied h2
        rw [List.countP_cons, if_pos hc] at hle
        omega
    obtain ⟨ih1, ih2⟩ := ih (lastStep last x) (fun y hy => hd y (List.mem_cons_of_mem x hy)) hq' hfirst' fun h => hcount.trans (htied h)
    constructor
    · rintro ⟨y, hy, hkind⟩
      rcases List.mem_cons.mp hy with rfl | hy
      · exact foldl_isSome (by rw [hqual hkind]; rfl) xs
      · exact ih1 ⟨y, hy, hkind⟩
    · intro hknown
      rcases ih2 fun y hy => hknown y (List.mem_cons_of_mem x hy) with ⟨hnone, heq⟩ | ⟨y, hy, hkind, heq⟩
      · rw [List.foldl_cons, heq]
        cases hkind : (verdictOf pmap q u tied x.1).kind with
        | qualifies => exact Or.inr ⟨x, List.mem_cons_self, hkind, hqual hkind⟩
        | not =>
          refine Or.inl ⟨fun y hy => ?_, hnot hkind⟩
          rcases List.mem_cons.mp hy with rfl | hy
          · rw [hkind]
            nofun
          · exact hnone y hy
        | unknown => exact absurd hkind (hknown x List.mem_cons_self)
      · exact Or.inr ⟨y, List.mem_cons_of_mem x hy, hkind, heq⟩

end Runs

/-! ### A whole session -/

section Session
variable (pmap : ProviderCodeMap)

/-- The verdicts on one instant. -/
def instantVerdicts (q u : Bool) (group : List SipTrade) : List Verdict :=
  group.map (verdictOf pmap q u (tiedGroup pmap group))

/-- The verdicts on the instants of a session, grouped. -/
def verdictRuns : Bool → Bool → List (List SipTrade) → List (List Verdict)
  | _, _, [] => []
  | q, u, g :: gs =>
    let vs := instantVerdicts pmap q u g
    vs :: verdictRuns (q || vs.any fun v => v.kind = .qualifies) (u || vs.any fun v => v.kind = .unknown) gs

theorem foldl_step_out (gs : List (List SipTrade)) (s : Sequence) :
    (gs.foldl (Sequence.step pmap) s).out = s.out ++ (verdictRuns pmap s.seenQualifying s.seenUnknown gs).flatten := by
  induction gs generalizing s with
  | nil => simp [verdictRuns]
  | cons g gs ih =>
    rw [List.foldl_cons, ih]
    simp only [Sequence.step, groupVerdicts_eq, verdictRuns, instantVerdicts, List.flatten_cons, List.append_assoc]

@[simp] theorem verdictOf_trade (q u tied : Bool) (t : SipTrade) : (verdictOf pmap q u tied t).trade = t := by
  cases hstatus : (evaluate pmap t).status with
  | eligible => simp only [verdictOf, hstatus]
  | ineligible => simp only [verdictOf, hstatus]
  | unknown => simp only [verdictOf, hstatus]
  | conditional =>
    simp only [verdictOf, hstatus]
    split_ifs <;> rfl

theorem instantVerdicts_trades (q u : Bool) (group : List SipTrade) :
    (instantVerdicts pmap q u group).map (·.trade) = group := by
  rw [instantVerdicts, List.map_map]
  exact (List.map_congr_left fun t _ => verdictOf_trade pmap q u _ t).trans (List.map_id group)

theorem verdictRuns_trades (q u : Bool) (gs : List (List SipTrade)) :
    (verdictRuns pmap q u gs).map (List.map (·.trade)) = gs := by
  induction gs generalizing q u with
  | nil => rfl
  | cons g gs ih => rw [verdictRuns, List.map_cons, instantVerdicts_trades, ih]

/-- Regrouping the verdicts of a session gives the verdicts of its instants. -/
theorem verdictGroups_sequenceVerdicts (trades : List SipTrade) :
    verdictGroups (sequenceVerdicts trades pmap) =
      verdictRuns pmap false false (groupsOn tradeTime (sortOn tradeTime trades)) := by
  have hgrouped := grouped_groupsOn (sortOn_sorted tradeTime trades)
  rw [← verdictRuns_trades pmap false false (groupsOn tradeTime (sortOn tradeTime trades))] at hgrouped
  unfold sequenceVerdicts verdictGroups
  rw [foldl_step_out, List.nil_append]
  exact groupsOn_flatten hgrouped.of_map

/-! ### The decision -/

variable {pmap} {symbol : Ticker} {refTime : AwareDatetime} {p : Positive ℚ}

theorem eq_of_dedup_length {l : List (Positive ℚ)} (h : ¬l.dedup.length > 1) {a b : Positive ℚ} (ha : a ∈ l)
    (hb : b ∈ l) : a = b := by
  have hlen : l.dedup.length ≤ 1 := Nat.le_of_not_lt h
  have ha' := List.mem_dedup.mpr ha
  have hb' := List.mem_dedup.mpr hb
  match hl : l.dedup, hlen with
  | [], _ =>
    rw [hl] at ha'
    cases ha'
  | [c], _ =>
    rw [hl] at ha' hb'
    rw [List.mem_singleton.mp ha', List.mem_singleton.mp hb']

/-- When the first group decides a price, its verdicts are known, and it holds qualifying trades, all at that
    price, or none, and the price comes from the groups after it. -/
theorem decideGroups_cons {vs : List Verdict} {before : List (List Verdict)}
    (h : (decideGroups symbol refTime (vs :: before)).price = some p) :
    (∀ v ∈ vs, v.kind ≠ .unknown) ∧
      (((∃ v ∈ vs, v.kind = .qualifies) ∧ ∀ v ∈ vs, v.kind = .qualifies → v.trade.price = p) ∨
        ((∀ v ∈ vs, v.kind ≠ .qualifies) ∧ (decideGroups symbol refTime before).price = some p)) := by
  rw [decideGroups] at h
  split at h
  · cases h
  · rename_i hunknown
    have hknown : ∀ v ∈ vs, v.kind ≠ .unknown := fun v hv hk =>
      absurd (List.mem_filter.mpr ⟨hv, decide_eq_true hk⟩) (by rw [hunknown]; exact List.not_mem_nil)
    refine ⟨hknown, ?_⟩
    split at h
    · rename_i hnone
      refine Or.inr ⟨fun v hv hk => ?_, h⟩
      have hmem : v.trade ∈ (vs.filter fun v => v.kind = .qualifies).map (·.trade) :=
        List.mem_map_of_mem (List.mem_filter.mpr ⟨hv, decide_eq_true hk⟩)
      rw [hnone] at hmem
      cases hmem
    · rename_i t ts hqual
      split at h
      · cases h
      · rename_i hsame
        have hp : t.price = p := Option.some.inj h
        refine Or.inl ⟨?_, fun v hv hk => ?_⟩
        · have ht : t ∈ (vs.filter fun v => v.kind = .qualifies).map (·.trade) := by
            rw [hqual]
            exact List.mem_cons_self
          obtain ⟨v, hv, -⟩ := List.mem_map.mp ht
          exact ⟨v, (List.mem_filter.mp hv).1, of_decide_eq_true (List.mem_filter.mp hv).2⟩
        · have hmem : v.trade ∈ (vs.filter fun v => v.kind = .qualifies).map (·.trade) :=
            List.mem_map_of_mem (List.mem_filter.mpr ⟨hv, decide_eq_true hk⟩)
          rw [hqual] at hmem
          rw [← hp]
          exact eq_of_dedup_length hsame (List.mem_map_of_mem hmem) (List.mem_map_of_mem List.mem_cons_self)

/-- One instant's trades, arranged: in some order, each decided. -/
def ArrangesInstant (pmap : ProviderCodeMap) (xs : List (SipTrade × Decided)) (group : List SipTrade) : Prop :=
  (xs.map Prod.fst).Perm group ∧ ∀ x ∈ xs, Completes (evaluate pmap x.1) x.2

/-- The run over the instants of a session, against any decision already made on the instants before: the
    induction is on the instants, and what is carried is the last price under the two flags. -/
theorem session_run {xss : List (List (SipTrade × Decided))} {gs : List (List SipTrade)}
    (hxs : List.Forall₂ (ArrangesInstant pmap) xss gs) {q u : Bool} {last : Option (Positive ℚ)}
    {before : List (List Verdict)} (hq : q = true → last.isSome)
    (hfirst : q = false → u = false → last = none)
    (hbefore : (decideGroups symbol refTime before).price = some p → last = some p)
    (h : (decideGroups symbol refTime ((verdictRuns pmap q u gs).reverse ++ before)).price = some p) :
    xss.flatten.foldl lastStep last = some p := by
  induction hxs generalizing q u last before with
  | nil => exact hbefore h
  | @cons xs g xss gs hx _ ih =>
    obtain ⟨hperm, hd⟩ := hx
    have hcount : xs.countP (fun x => contested pmap x.1) = g.countP (contested pmap) := by
      rw [← hperm.countP_eq, List.countP_map]
      rfl
    have hmem : ∀ v, v ∈ instantVerdicts pmap q u g ↔ ∃ x ∈ xs, verdictOf pmap q u (tiedGroup pmap g) x.1 = v :=
      fun v => by
        rw [instantVerdicts, ← (hperm.map _).mem_iff, List.map_map, List.mem_map]
        rfl
    obtain ⟨hsome, hknown⟩ := instant_run (q := q) (u := u) (tiedGroup pmap g) last hd hq
      (fun h1 _ h3 _ => hfirst h1 h3) fun htied => by
        have := of_decide_eq_false htied
        omega
    rw [List.flatten_cons, List.foldl_append]
    rw [verdictRuns, List.reverse_cons, List.append_assoc, List.singleton_append] at h
    refine ih ?_ ?_ ?_ h
    · intro hq'
      rcases Bool.or_eq_true_iff.mp hq' with hq' | hany
      · exact foldl_isSome (hq hq') xs
      · obtain ⟨v, hv, hk⟩ := List.any_eq_true.mp hany
        obtain ⟨x, hx, rfl⟩ := (hmem v).mp hv
        exact hsome ⟨x, hx, of_decide_eq_true hk⟩
    · intro hq' hu'
      obtain ⟨hq0, hnoqual⟩ := Bool.or_eq_false_iff.mp hq'
      obtain ⟨hu0, hnounknown⟩ := Bool.or_eq_false_iff.mp hu'
      have hnot : ∀ x ∈ xs, (verdictOf pmap q u (tiedGroup pmap g) x.1).kind ≠ .unknown := fun x hx hk =>
        absurd (List.any_eq_true.mpr ⟨_, (hmem _).mpr ⟨x, hx, rfl⟩, decide_eq_true hk⟩) (by rw [hnounknown]; nofun)
      rcases hknown hnot with ⟨-, heq⟩ | ⟨x, hx, hk, -⟩
      · rw [heq]
        exact hfirst hq0 hu0
      · exact absurd (List.any_eq_true.mpr ⟨_, (hmem _).mpr ⟨x, hx, rfl⟩, decide_eq_true hk⟩) (by rw [hnoqual]; nofun)
    · intro hcons
      obtain ⟨hnot, hdec⟩ := decideGroups_cons hcons
      rcases hknown fun x hx => hnot _ ((hmem _).mpr ⟨x, hx, rfl⟩) with ⟨hnoqual, heq⟩ | ⟨x, hx, hk, heq⟩
      · rw [heq]
        rcases hdec with ⟨⟨v, hv, hk⟩, -⟩ | ⟨-, hprice⟩
        · obtain ⟨y, hy, rfl⟩ := (hmem v).mp hv
          exact absurd hk (hnoqual y hy)
        · exact hbefore hprice
      · rcases hdec with ⟨-, hprice⟩ | ⟨hnoqual, -⟩
        · have htrade : (verdictOf pmap q u (tiedGroup pmap g) x.1).trade.price = p :=
            hprice _ ((hmem _).mpr ⟨x, hx, rfl⟩) hk
          rw [verdictOf_trade] at htrade
          rw [heq, htrade]
        · exact absurd hk (hnoqual _ ((hmem _).mpr ⟨x, hx, rfl⟩))

/-! ### Arrangements by instant -/

/-- An arrangement of a session goes through its instants one after the other. -/
theorem Arranges.instants {trades : List SipTrade} {xs : List (SipTrade × Decided)} (h : Arranges pmap trades xs) :
    List.Forall₂ (ArrangesInstant pmap) (groupsOn (fun x => tradeTime x.1) xs)
      (groupsOn tradeTime (sortOn tradeTime trades)) := by
  have hgrouped := grouped_groupsOn h.ordered
  have hperm : List.Forall₂ List.Perm ((groupsOn (fun x => tradeTime x.1) xs).map (List.map Prod.fst))
      (groupsOn tradeTime (sortOn tradeTime trades)) := by
    refine hgrouped.map.unique (grouped_groupsOn (sortOn_sorted tradeTime trades)) ?_
    rw [flatten_groupsOn, ← List.map_flatten, flatten_groupsOn]
    exact h.perm.trans (sortOn_perm tradeTime trades).symm
  have hdecided : ∀ g ∈ groupsOn (fun x : SipTrade × Decided => tradeTime x.1) xs, ∀ x ∈ g,
      Completes (evaluate pmap x.1) x.2 := fun g hg x hx => by
    refine h.decided x ?_
    rw [← flatten_groupsOn (fun x : SipTrade × Decided => tradeTime x.1) xs]
    exact List.mem_flatten.mpr ⟨g, hg, hx⟩
  have hboth := List.forall₂_and_left _ _ |>.mpr ⟨hdecided, List.forall₂_map_left_iff.mp hperm⟩
  exact hboth.imp fun _ _ hab => ⟨hab.2, hab.1⟩

/-! ### The order of the input -/

theorem verdictRuns_perm {gs gs' : List (List SipTrade)} (h : List.Forall₂ List.Perm gs gs') (q u : Bool) :
    List.Forall₂ List.Perm (verdictRuns pmap q u gs) (verdictRuns pmap q u gs') := by
  induction h generalizing q u with
  | nil => exact .nil
  | @cons g g' gs gs' hg _ ih =>
    have htied : tiedGroup pmap g = tiedGroup pmap g' := by
      unfold tiedGroup
      rw [hg.countP_eq]
    have hvs : (instantVerdicts pmap q u g).Perm (instantVerdicts pmap q u g') := by
      unfold instantVerdicts
      rw [htied]
      exact hg.map _
    rw [verdictRuns, verdictRuns, hvs.any_eq, hvs.any_eq]
    exact .cons hvs (ih _ _)

/-- The status and the price of a decision do not depend on the order inside each group. -/
theorem decideGroups_perm {vss vss' : List (List Verdict)} (h : List.Forall₂ List.Perm vss vss') :
    (decideGroups symbol refTime vss).status = (decideGroups symbol refTime vss').status ∧
      (decideGroups symbol refTime vss).price = (decideGroups symbol refTime vss').price := by
  induction h with
  | nil => exact ⟨rfl, rfl⟩
  | @cons vs vs' vss vss' hvs _ ih =>
    have hunknown := hvs.filter fun v => decide (v.kind = .unknown)
    have hqual := (hvs.filter fun v => decide (v.kind = .qualifies)).map (·.trade)
    rw [decideGroups, decideGroups]
    cases hu : vs.filter fun v => decide (v.kind = .unknown) with
    | cons v rest =>
      obtain ⟨v', rest', hu'⟩ : ∃ v' rest', (vs'.filter fun v => decide (v.kind = .unknown)) = v' :: rest' :=
        List.exists_cons_of_ne_nil fun hnil => by
          rw [hu, hnil] at hunknown
          exact absurd hunknown.length_eq (by simp)
      rw [hu']
      exact ⟨rfl, rfl⟩
    | nil =>
      rw [hu, List.nil_perm] at hunknown
      rw [hunknown]
      cases hq : (vs.filter fun v => decide (v.kind = .qualifies)).map (·.trade) with
      | nil =>
        rw [hq, List.nil_perm] at hqual
        rw [hqual]
        exact ih
      | cons t ts =>
        obtain ⟨t', ts', hq'⟩ : ∃ t' ts', (vs'.filter fun v => decide (v.kind = .qualifies)).map (·.trade) = t' :: ts' :=
          List.exists_cons_of_ne_nil fun hnil => by
            rw [hq, hnil] at hqual
            exact absurd hqual.length_eq (by simp)
        rw [hq, hq'] at hqual
        have hprices := hqual.map (·.price)
        rw [hq']
        simp only
        rw [hprices.dedup.length_eq]
        split
        · exact ⟨rfl, rfl⟩
        · rename_i hsame
          have ht : t.price ∈ (t' :: ts').map (·.price) :=
            hprices.mem_iff.mp (List.mem_map_of_mem (f := fun t : SipTrade => t.price) List.mem_cons_self)
          refine ⟨rfl, congrArg some ?_⟩
          exact eq_of_dedup_length hsame ht (List.mem_map_of_mem (f := fun t : SipTrade => t.price) List.mem_cons_self)

/-! ### The resolved price -/

/-- The trades of the regular session up to the reference time. -/
def regularTrades (session : TradingSession) (refTime : AwareDatetime) (trades : List SipTrade) : List SipTrade :=
  trades.filter fun t => session.openAt.instant ≤ tradeTime t ∧ tradeTime t ≤ refTime.instant

/-- The resolved reference price is the consolidated last price under every arrangement of the trades and
    every completion of the unknowns, and it does not depend on the order the trades came in. -/
theorem resolveBacktest_sound (symbol : Ticker) (trades : List SipTrade) (session : TradingSession)
    (refTime : AwareDatetime) (pmap : ProviderCodeMap) :
    (∀ p, (resolveBacktest symbol trades session refTime pmap).status = .resolved →
      (resolveBacktest symbol trades session refTime pmap).price = some p →
      ∀ xs, Arranges pmap (regularTrades session refTime trades) xs → lastPrice xs = some p) ∧
    (∀ trades', trades'.Perm trades →
      (resolveBacktest symbol trades' session refTime pmap).status =
          (resolveBacktest symbol trades session refTime pmap).status ∧
        (resolveBacktest symbol trades' session refTime pmap).price =
          (resolveBacktest symbol trades session refTime pmap).price) := by
  constructor
  · intro p _ hprice xs hxs
    unfold resolveBacktest at hprice
    split at hprice
    · cases hprice
    · simp only [verdictGroups_sequenceVerdicts] at hprice
      rw [← List.append_nil (List.reverse _)] at hprice
      rw [lastPrice, ← flatten_groupsOn (fun x : SipTrade × Decided => tradeTime x.1) xs]
      have hnothing : (decideGroups symbol refTime []).price = some p → (none : Option (Positive ℚ)) = some p := nofun
      exact session_run (q := false) (u := false) hxs.instants nofun (fun _ _ => rfl) hnothing hprice
  · intro trades' hperm
    unfold resolveBacktest
    split
    · exact ⟨rfl, rfl⟩
    · simp only [verdictGroups_sequenceVerdicts]
      have hregular := hperm.filter fun t => decide (session.openAt.instant ≤ tradeTime t ∧ tradeTime t ≤ refTime.instant)
      have hgroups := groups_of_perm (sortOn_sorted tradeTime (trades'.filter fun t =>
        decide (session.openAt.instant ≤ tradeTime t ∧ tradeTime t ≤ refTime.instant)))
        ((sortOn_perm tradeTime _).trans hregular)
      exact decideGroups_perm (List.rel_reverse (verdictRuns_perm hgroups false false))

/-- On trades that come in time order the resolver reads their instants as they stand. -/
theorem resolveBacktest_of_sorted (symbol : Ticker) (trades : List SipTrade) (session : TradingSession)
    (refTime : AwareDatetime) (pmap : ProviderCodeMap)
    (hwindow : session.openAt.instant ≤ refTime.instant ∧ refTime.instant ≤ session.closeAt.instant)
    (hsorted : (regularTrades session refTime trades).Pairwise fun a b => tradeTime a ≤ tradeTime b) :
    resolveBacktest symbol trades session refTime pmap = decideGroups symbol refTime
      (verdictRuns pmap false false (groupsOn tradeTime (regularTrades session refTime trades))).reverse := by
  unfold resolveBacktest
  rw [if_neg (not_not_intro hwindow)]
  simp only [verdictGroups_sequenceVerdicts]
  show decideGroups _ _ (verdictRuns pmap false false
    (groupsOn tradeTime (sortOn tradeTime (regularTrades session refTime trades)))).reverse = _
  rw [sortOn_of_sorted hsorted]

/-! ### A session with an undecided trade before its last price -/

def tradeAt (instant : Int) (price : Positive ℚ) (code : ConditionCode) : SipTrade :=
  ⟨⟨"SPY", by decide⟩, ⟨instant, 0⟩, price, ⟨1, Samples.nonNegative_one ℚ⟩, .c, [code], none⟩

def regularMap : ProviderCodeMap := ⟨[⟨.c, "@", "@", "Regular Sale", "Regular Sale", true⟩]⟩

def daySession : TradingSession :=
  ⟨⟨0, 0⟩, ⟨0, 0⟩, ⟨"v", Samples.label_v⟩, 0, ⟨0, 0⟩, ⟨10, 0⟩, by decide, Samples.known_then⟩

/-- An unknown trade at 1, a regular sale at 2. -/
def dayTrades : List SipTrade :=
  [tradeAt 1 ⟨99, by decide⟩ ⟨"?", by decide⟩, tradeAt 2 ⟨100, Samples.hundred_positive ℚ⟩ ⟨"@", Samples.code_at⟩]

theorem resolveBacktest_sound_day : lastPrice [(tradeAt 1 ⟨99, by decide⟩ ⟨"?", by decide⟩, .updates),
    (tradeAt 2 ⟨100, by decide⟩ ⟨"@", by decide⟩, .updates)] = some ⟨100, by decide⟩ := by
  have hrun := resolveBacktest_of_sorted ⟨"SPY", by decide⟩ dayTrades daySession ⟨5, 0⟩ regularMap
    (by decide) (by decide)
  refine (resolveBacktest_sound ⟨"SPY", by decide⟩ dayTrades daySession ⟨5, 0⟩ regularMap).1 ⟨100, by decide⟩
    (by rw [hrun]; decide) (by rw [hrun]; decide) _ ⟨by decide, ?_, ?_⟩
  · exact List.pairwise_pair.mpr (by decide)
  · intro x hx
    rcases List.mem_cons.mp hx with rfl | hx
    · trivial
    · rw [List.mem_singleton.mp hx]
      rfl

end Session

end ReferenceRules
end AsymmetricCommittee
