import AsymmetricCommittee.Execution.TradeConditions
import AsymmetricCommittee.Lib.Grouping

/-! Reference-price resolution from a session's SIP trades (`execution/reference_rules.py`). -/

namespace AsymmetricCommittee
namespace ReferenceRules
open TradeConditions Grouping

def unresolved (symbol : Ticker) (at_ : AwareDatetime) (reason : RefReason) : ReferenceObservation where
  status := .unresolved
  reason := some reason
  price := none
  source := none
  tradeTime := none
  tradeTape := none
  tradeConditions := []
  tradeId := none
  resolved_evidence := nofun
  unresolved_evidence := fun _ => ⟨rfl, rfl, rfl⟩
  symbolRef := symbol
  refTime := at_

inductive Kind where
  | qualifies
  | not
  | unknown
  deriving DecidableEq, Repr

structure Verdict where
  trade : SipTrade
  kind : Kind
  reason : Option RefReason
  deriving DecidableEq

/-- The instant a trade is ordered and grouped by. -/
def tradeTime (t : SipTrade) : Int := t.time.instant

def evaluate (pmap : ProviderCodeMap) (t : SipTrade) : Eligibility :=
  evaluateConditions t.tape (t.conditions.map (·.val)) pmap

/-- The verdicts on the trades of one instant, given what the earlier instants left. -/
def groupVerdicts (pmap : ProviderCodeMap) (seenQualifying seenUnknown : Bool) (group : List SipTrade) : List Verdict :=
  let base := group.map (evaluate pmap)
  (group.zip base).zipIdx.map fun e =>
    let trade := e.1.1
    let b := e.1.2
    match b.status with
    | .eligible => ⟨trade, .qualifies, none⟩
    | .ineligible => ⟨trade, .not, none⟩
    | .unknown => ⟨trade, .unknown, b.reason⟩
    | .conditional =>
      let tied := base.zipIdx.any fun o => o.1.status ≠ .ineligible ∧ o.2 ≠ e.2
      if seenQualifying then
        -- note 3 needs the participant or listing market, which is not held
        if b.note3 then ⟨trade, .unknown, some .unknownCondition⟩ else ⟨trade, .not, none⟩
      else if tied then ⟨trade, .unknown, some .ambiguousOrder⟩
      else if seenUnknown then ⟨trade, .unknown, some .unknownCondition⟩
      else ⟨trade, .qualifies, none⟩

/-- What `sequence_verdicts` carries from one instant to the next. -/
structure Sequence where
  out : List Verdict
  seenQualifying : Bool
  seenUnknown : Bool

def Sequence.step (pmap : ProviderCodeMap) (s : Sequence) (group : List SipTrade) : Sequence :=
  let verdicts := groupVerdicts pmap s.seenQualifying s.seenUnknown group
  ⟨s.out ++ verdicts, s.seenQualifying || verdicts.any fun v => v.kind = .qualifies,
    s.seenUnknown || verdicts.any fun v => v.kind = .unknown⟩

/-- Whether each trade of one session's sequence updates the consolidated last price. -/
def sequenceVerdicts (trades : List SipTrade) (pmap : ProviderCodeMap) : List Verdict :=
  ((groupsOn tradeTime (sortOn tradeTime trades)).foldl (Sequence.step pmap) ⟨[], false, false⟩).out

def sipObservation (symbol : Ticker) (at_ : AwareDatetime) (trade : SipTrade) : ReferenceObservation where
  status := .resolved
  reason := none
  price := some trade.price
  source := some .sipLast
  tradeTime := some trade.time
  tradeTape := some trade.tape
  tradeConditions := trade.conditions
  tradeId := trade.tradeId
  resolved_evidence := fun _ => ⟨rfl, rfl, rfl⟩
  unresolved_evidence := nofun
  symbolRef := symbol
  refTime := at_

/-- `_decide`: the first group, in the given order, that qualifies or is undecided decides the result. -/
def decideGroups (symbol : Ticker) (at_ : AwareDatetime) : List (List Verdict) → ReferenceObservation
  | [] => unresolved symbol at_ .noEligibleTrade
  | group :: groups =>
    match group.filter fun v => v.kind = .unknown with
    | v :: _ => unresolved symbol at_ (v.reason.getD .unknownCondition)
    | [] =>
      match (group.filter fun v => v.kind = .qualifies).map (·.trade) with
      | [] => decideGroups symbol at_ groups
      | t :: ts =>
        if ((t :: ts).map (·.price)).dedup.length > 1 then unresolved symbol at_ .ambiguousOrder
        else sipObservation symbol at_ t

/-- `_groups`. -/
def verdictGroups (verdicts : List Verdict) : List (List Verdict) := groupsOn (fun v => tradeTime v.trade) verdicts

/-- Latest eligible regular-session SIP trade at or before `refTime`. -/
def resolveBacktest (symbol : Ticker) (trades : List SipTrade) (session : TradingSession) (refTime : AwareDatetime)
    (pmap : ProviderCodeMap) : ReferenceObservation :=
  if ¬(session.openAt.instant ≤ refTime.instant ∧ refTime.instant ≤ session.closeAt.instant) then
    unresolved symbol refTime .noEligibleTrade
  else
    let regular := trades.filter fun t => session.openAt.instant ≤ tradeTime t ∧ tradeTime t ≤ refTime.instant
    decideGroups symbol refTime (verdictGroups (sequenceVerdicts regular pmap)).reverse

/-- First eligible trade at or after `tau` in the first regular session that has not closed. -/
def reconstructHalt (symbol : Ticker) (trades : List SipTrade) (tau : AwareDatetime) (sessions : List TradingSession)
    (pmap : ProviderCodeMap) : ReferenceObservation :=
  match sortOn (fun s : TradingSession => s.openAt.instant) (sessions.filter fun s => tau.instant < s.closeAt.instant) with
  | [] => unresolved symbol tau .calendarUncovered
  | session :: _ =>
    let start := max tau.instant session.openAt.instant
    let regular := trades.filter fun t => session.openAt.instant ≤ tradeTime t ∧ tradeTime t ≤ session.closeAt.instant
    let after := (verdictGroups (sequenceVerdicts regular pmap)).filter fun group =>
      group.head?.any fun v => start ≤ tradeTime v.trade
    decideGroups symbol tau after

end ReferenceRules
end AsymmetricCommittee
