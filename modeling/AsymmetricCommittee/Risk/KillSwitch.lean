import AsymmetricCommittee.Contracts.Data
import AsymmetricCommittee.Contracts.Records

/-! Kill-switch state and trigger evaluation (`risk/kill_switch.py`). Numbers are of an ordered field, so every one is
    finite. -/

namespace AsymmetricCommittee

/-- Why equity figures cannot be used: a `ValueError`, or an `EquityEvidenceError`. -/
inductive EquityError where
  | figures
  | evidence
  deriving DecidableEq, Repr

/-- The state of the switch: what engaged it, if anything. -/
abbrev KillSwitch := Option KillTrigger

namespace KillSwitch

def halted (self : KillSwitch) : Bool := self.isSome

/-- Engage the switch; the first trigger is kept. -/
def halt (self : KillSwitch) (trigger : KillTrigger) : KillSwitch := self.or (some trigger)

@[simp] theorem halted_halt (self : KillSwitch) (trigger : KillTrigger) : (self.halt trigger).halted = true := by
  cases self <;> rfl

/-- Buying adds risk, selling reduces it. -/
def allows (self : KillSwitch) (side : OrderSide) : Bool := !self.halted || side = .sell

section Numbers
variable {K : Type} [Field K] [LinearOrder K]

/-- Loss as a fraction of the prior close equity. -/
def dailyLoss (equity priorCloseEquity : K) : Except EquityError K :=
  if priorCloseEquity ≤ 0 then .error .figures else .ok ((priorCloseEquity - equity) / priorCloseEquity)

/-- The peak of the history and the current equity, and the drawdown from it. -/
def peakDrawdown (history : List K) (current : K) : Except EquityError (K × K) :=
  if history = [] then .error .evidence
  else if (history ++ [current]).any fun v => v ≤ 0 then .error .evidence
  else
    let peak := history.foldl max current
    .ok (peak, (peak - current) / peak)

/-- Required feeds whose last success is missing or too old. Ages are in microseconds. -/
def staleFeeds (lastSuccess : FeedName → Option AwareDatetime) (slaHours : List (FeedName × K)) (now : AwareDatetime) :
    List FeedName :=
  (slaHours.filter fun sla => match lastSuccess sla.1 with
    | none => true
    | some seen => sla.2 * 3600000000 < ((now.instant - seen.instant : Int) : K)).map (·.1)

/-- The first automatic trigger that fires. -/
def evaluate (equity priorCloseEquity limit : K) (lastSuccess : FeedName → Option AwareDatetime)
    (slaHours : List (FeedName × K)) (now : AwareDatetime) : Except EquityError (Option KillTrigger) :=
  match dailyLoss equity priorCloseEquity with
  | .error e => .error e
  | .ok loss =>
    if limit < loss then .ok (some .dailyLoss)
    else if staleFeeds lastSuccess slaHours now ≠ [] then .ok (some .staleFeed)
    else .ok none

/-- `from_events`: the switch as the stored events leave it. -/
def fromEvents (events : List (KillSwitchEvent K)) : KillSwitch :=
  (events.insertionSort fun a b => a.triggeredAt.instant ≤ b.triggeredAt.instant).foldl (fun ks e => ks.halt e.trigger) none

omit [Field K] [LinearOrder K] in
theorem halted_foldl (events : List (KillSwitchEvent K)) (ks : KillSwitch) :
    (events.foldl (fun ks e => ks.halt e.trigger) ks).halted = true ↔ ks.halted = true ∨ events ≠ [] := by
  induction events generalizing ks with
  | nil => simp
  | cons event events ih => simp [ih]

omit [Field K] [LinearOrder K] in
/-- Any stored event leaves the switch engaged. -/
@[simp] theorem halted_fromEvents (events : List (KillSwitchEvent K)) :
    (fromEvents events).halted = true ↔ events ≠ [] := by
  have hnone : ¬halted none = true := Bool.false_ne_true
  have hsort : events.insertionSort (fun a b => a.triggeredAt.instant ≤ b.triggeredAt.instant) = [] ↔ events = [] := by
    rw [← List.length_eq_zero_iff, List.length_insertionSort, List.length_eq_zero_iff]
  rw [fromEvents, halted_foldl, or_iff_right hnone, Ne, hsort]

/-- Whether any stored halt completed a flatten. -/
def wasFlattened (events : List (KillSwitchEvent K)) : Bool := events.any (·.flattened)

end Numbers
end KillSwitch
end AsymmetricCommittee
