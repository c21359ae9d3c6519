import AsymmetricCommittee.Theorems.ReferencePrice
import AsymmetricCommittee.Contracts.Samples

/-! A price that was reconstructed early is final. A verdict depends on the trades of its own instant and the earlier ones
    only, and the first instant that settles a mark settles it for good. -/

namespace AsymmetricCommittee
namespace ReferenceRules
open TradeConditions Grouping

/-- The trades up to an instant. -/
def upTo (cut : AwareDatetime) (trades : List SipTrade) : List SipTrade := trades.filter fun t => tradeTime t ≤ cut.instant

/-! ### Verdicts -/

section Verdicts
variable (pmap : ProviderCodeMap)

/-- The verdicts on the first instants are there already when the later ones are not. -/
theorem verdictRuns_append (q u : Bool) (before after : List (List SipTrade)) : ∃ rest,
    verdictRuns pmap q u (before ++ after) = verdictRuns pmap q u before ++ rest ∧ rest.map (List.map (·.trade)) = after := by
  induction before generalizing q u with
  | nil => exact ⟨_, rfl, verdictRuns_trades pmap q u after⟩
  | cons g before ih =>
    obtain ⟨rest, hrest, htrades⟩ := ih (q || (instantVerdicts pmap q u g).any fun v => v.kind = .qualifies)
      (u || (instantVerdicts pmap q u g).any fun v => v.kind = .unknown)
    refine ⟨rest, ?_, htrades⟩
    rw [List.cons_append, verdictRuns, hrest]
    rfl

/-- The verdicts on trades up to an instant, by instant, are the first of those on all trades. -/
theorem verdictGroups_upTo (cut : AwareDatetime) (trades : List SipTrade) : ∃ rest,
    verdictGroups (sequenceVerdicts trades pmap) = verdictGroups (sequenceVerdicts (upTo cut trades) pmap) ++ rest ∧
      (∀ g ∈ verdictGroups (sequenceVerdicts (upTo cut trades) pmap), ∀ v ∈ g, tradeTime v.trade ≤ cut.instant) ∧
      ∀ g ∈ rest, ∀ v ∈ g, cut.instant < tradeTime v.trade := by
  obtain ⟨before, after, hsplit, hgrouped, hbefore, hafter⟩ :=
    (grouped_groupsOn (sortOn_sorted tradeTime trades)).split cut.instant
  have hcut : sortOn tradeTime (upTo cut trades) = before.flatten := by
    have hall := flatten_groupsOn tradeTime (sortOn tradeTime trades)
    rw [hsplit, List.flatten_append] at hall
    rw [upTo, ← filter_sortOn, ← hall, List.filter_append, List.filter_eq_self.mpr, List.filter_eq_nil_iff.mpr,
      List.append_nil]
    · intro t ht
      obtain ⟨g, hg, htg⟩ := List.mem_flatten.mp ht
      simpa using hafter g hg t htg
    · intro t ht
      obtain ⟨g, hg, htg⟩ := List.mem_flatten.mp ht
      exact decide_eq_true (hbefore g hg t htg)
  have hgroups : groupsOn tradeTime (sortOn tradeTime (upTo cut trades)) = before := by
    rw [hcut, groupsOn_flatten hgrouped]
  obtain ⟨rest, hrest, htrades⟩ := verdictRuns_append pmap false false before after
  have htime : ∀ {gs : List (List SipTrade)} {vss : List (List Verdict)} {P : Int → Prop},
      vss.map (List.map (·.trade)) = gs → (∀ g ∈ gs, ∀ t ∈ g, P (tradeTime t)) →
      ∀ vs ∈ vss, ∀ v ∈ vs, P (tradeTime v.trade) := by
    rintro gs vss P rfl hP vs hvs v hv
    exact hP _ (List.mem_map_of_mem hvs) _ (List.mem_map_of_mem hv)
  rw [verdictGroups_sequenceVerdicts, verdictGroups_sequenceVerdicts, hgroups, hsplit]
  exact ⟨rest, hrest, htime (P := (· ≤ cut.instant)) (verdictRuns_trades pmap false false before) hbefore,
    htime (P := (cut.instant < ·)) htrades hafter⟩

theorem flatten_verdictGroups (verdicts : List Verdict) : (verdictGroups verdicts).flatten = verdicts :=
  flatten_groupsOn _ verdicts

/-- The verdicts on trades up to an instant are those that they have among all trades. -/
theorem sequenceVerdicts_upTo (cut : AwareDatetime) (trades : List SipTrade) : sequenceVerdicts (upTo cut trades) pmap =
    (sequenceVerdicts trades pmap).filter fun v => tradeTime v.trade ≤ cut.instant := by
  obtain ⟨rest, hgroups, hbefore, hafter⟩ := verdictGroups_upTo pmap cut trades
  have hall := flatten_verdictGroups (sequenceVerdicts trades pmap)
  rw [hgroups, List.flatten_append, flatten_verdictGroups] at hall
  rw [← hall, List.filter_append, List.filter_eq_self.mpr, List.filter_eq_nil_iff.mpr, List.append_nil]
  · intro v hv
    obtain ⟨g, hg, hvg⟩ := List.mem_flatten.mp hv
    simpa using hafter g hg v hvg
  · intro v hv
    rw [← flatten_verdictGroups (sequenceVerdicts (upTo cut trades) pmap)] at hv
    obtain ⟨g, hg, hvg⟩ := List.mem_flatten.mp hv
    exact decide_eq_true (hbefore g hg v hvg)

end Verdicts

/-! ### The mark -/

/-- The first groups decide for good once they resolve. -/
theorem decideGroups_append {symbol : Ticker} {at_ : AwareDatetime} {groups : List (List Verdict)}
    (h : (decideGroups symbol at_ groups).status = .resolved) (later : List (List Verdict)) :
    decideGroups symbol at_ (groups ++ later) = decideGroups symbol at_ groups := by
  induction groups with
  | nil => cases h
  | cons group groups ih =>
    rw [decideGroups] at h
    rw [List.cons_append, decideGroups, decideGroups]
    split at h
    · cases h
    · split at h
      · exact ih h
      · rfl

/-- The verdicts on some trades do not change when later trades come in, and a mark that they resolve is the mark of the
    complete session. -/
theorem reconstruction_final (symbol : Ticker) (trades : List SipTrade) (cut tau : AwareDatetime)
    (sessions : List TradingSession) (pmap : ProviderCodeMap) :
    (sequenceVerdicts (upTo cut trades) pmap =
      (sequenceVerdicts trades pmap).filter fun v => tradeTime v.trade ≤ cut.instant) ∧
    ((reconstructHalt symbol (upTo cut trades) tau sessions pmap).status = .resolved →
      reconstructHalt symbol trades tau sessions pmap = reconstructHalt symbol (upTo cut trades) tau sessions pmap) := by
  refine ⟨sequenceVerdicts_upTo pmap cut trades, fun h => ?_⟩
  unfold reconstructHalt at h ⊢
  split at h
  · cases h
  · next session _ _ =>
    dsimp only at h ⊢
    have hcomm : (upTo cut trades).filter (fun t => session.openAt.instant ≤ tradeTime t ∧ tradeTime t ≤ session.closeAt.instant) =
        upTo cut (trades.filter fun t => session.openAt.instant ≤ tradeTime t ∧ tradeTime t ≤ session.closeAt.instant) := by
      rw [upTo, upTo, List.filter_filter, List.filter_filter]
      exact List.filter_congr fun t _ => Bool.and_comm _ _
    rw [hcomm] at h ⊢
    obtain ⟨rest, hgroups, -⟩ := verdictGroups_upTo pmap cut
      (trades.filter fun t => session.openAt.instant ≤ tradeTime t ∧ tradeTime t ≤ session.closeAt.instant)
    rw [hgroups, List.filter_append]
    exact decideGroups_append h _

/-! ### A mark that is read before the session is over -/

/-- In one session, on trades that come in time order, the instants are read as they stand. -/
theorem reconstructHalt_of_sorted (symbol : Ticker) (trades : List SipTrade) (tau : AwareDatetime) (session : TradingSession)
    (pmap : ProviderCodeMap) (hopen : tau.instant < session.closeAt.instant)
    (hsorted : (trades.filter fun t => session.openAt.instant ≤ tradeTime t ∧ tradeTime t ≤ session.closeAt.instant).Pairwise
      fun a b => tradeTime a ≤ tradeTime b) :
    reconstructHalt symbol trades tau [session] pmap = decideGroups symbol tau
      ((verdictRuns pmap false false (groupsOn tradeTime (trades.filter fun t =>
        session.openAt.instant ≤ tradeTime t ∧ tradeTime t ≤ session.closeAt.instant))).filter fun group =>
          group.head?.any fun v => max tau.instant session.openAt.instant ≤ tradeTime v.trade) := by
  have hsession : sortOn (fun s : TradingSession => s.openAt.instant)
      ([session].filter fun s => tau.instant < s.closeAt.instant) = [session] := by
    rw [List.filter_cons, if_pos (decide_eq_true hopen), List.filter_nil]
    exact List.mergeSort_singleton _
  unfold reconstructHalt
  rw [hsession]
  simp only [verdictGroups_sequenceVerdicts, sortOn_of_sorted hsorted]

/-- A regular sale at 3 and one at 6. -/
def haltTrades : List SipTrade :=
  [tradeAt 3 ⟨100, Samples.hundred_positive ℚ⟩ ⟨"@", Samples.code_at⟩, tradeAt 6 ⟨101, by decide⟩ ⟨"@", Samples.code_at⟩]

/-- A mark of a trigger at 2 that is read at 5 is that of the session. -/
theorem reconstruction_final_early : reconstructHalt ⟨"SPY", by decide⟩ haltTrades ⟨2, 0⟩ [daySession] regularMap =
    reconstructHalt ⟨"SPY", by decide⟩ (upTo ⟨5, 0⟩ haltTrades) ⟨2, 0⟩ [daySession] regularMap := by
  refine (reconstruction_final ⟨"SPY", by decide⟩ haltTrades ⟨5, 0⟩ ⟨2, 0⟩ [daySession] regularMap).2 ?_
  rw [reconstructHalt_of_sorted _ _ _ _ _ (by decide) (by decide)]
  decide

end ReferenceRules
end AsymmetricCommittee
