import AsymmetricCommittee.Risk.KillSwitch
import AsymmetricCommittee.Theorems.HaltedRuns

/-! The trigger of a halt. The switch takes it from the events by their times, and the run's status names the halt that
    committed first. The two agree, whatever the order of the events, exactly when the earliest events all have the
    trigger that committed first. -/

namespace AsymmetricCommittee

theorem KillTrigger.value_injective {t t' : KillTrigger} (h : t.value = t'.value) : t = t' := by
  cases t <;> cases t' <;> first | rfl | exact absurd h (by decide)

theorem haltReason_injective {t t' : KillTrigger} (h : haltReason t = haltReason t') : t = t' := by
  have htext := congrArg String.toList h
  rw [haltReason, haltReason, String.toList_append, String.toList_append] at htext
  exact KillTrigger.value_injective (String.toList_injective (List.append_cancel_left htext))

namespace KillSwitch
variable {K : Type} {e : KillSwitchEvent K} {events events' : List (KillSwitchEvent K)}

/-! ### The switch -/

/-- No event of the list is earlier. -/
def Earliest (events : List (KillSwitchEvent K)) (e : KillSwitchEvent K) : Prop :=
  e ∈ events ∧ ∀ e' ∈ events, e.triggeredAt.instant ≤ e'.triggeredAt.instant

/-- The events in the order of their times. -/
def byTime (events : List (KillSwitchEvent K)) : List (KillSwitchEvent K) :=
  events.insertionSort fun a b => a.triggeredAt.instant ≤ b.triggeredAt.instant

theorem byTime_perm (events : List (KillSwitchEvent K)) : (byTime events).Perm events := List.perm_insertionSort _ _

theorem byTime_ascending (events : List (KillSwitchEvent K)) :
    (byTime events).Pairwise fun a b => a.triggeredAt.instant ≤ b.triggeredAt.instant := by
  have : Std.Total fun a b : KillSwitchEvent K => a.triggeredAt.instant ≤ b.triggeredAt.instant :=
    ⟨fun a b => Int.le_total _ _⟩
  have : IsTrans (KillSwitchEvent K) fun a b => a.triggeredAt.instant ≤ b.triggeredAt.instant :=
    ⟨fun _ _ _ hab hbc => Int.le_trans hab hbc⟩
  exact List.pairwise_insertionSort _ events

theorem foldl_halt_some (events : List (KillSwitchEvent K)) (trigger : KillTrigger) :
    events.foldl (fun ks e => KillSwitch.halt ks e.trigger) (some trigger) = some trigger := by
  induction events with
  | nil => rfl
  | cons e events ih => exact ih

/-- The switch has the trigger of the first event in the order of the times. -/
theorem fromEvents_eq_head (events : List (KillSwitchEvent K)) : fromEvents events = (byTime events).head?.map (·.trigger) := by
  change (byTime events).foldl (fun ks e => KillSwitch.halt ks e.trigger) none = _
  cases byTime events with
  | nil => rfl
  | cons e rest => exact foldl_halt_some rest e.trigger

theorem earliest_of_head (h : (byTime events).head? = some e) : Earliest events e := by
  have hperm := byTime_perm events
  have hsort := byTime_ascending events
  rcases hlist : byTime events with - | ⟨first, rest⟩
  · rw [hlist] at h
    cases h
  · rw [hlist] at h hsort hperm
    cases h
    refine ⟨hperm.mem_iff.mp List.mem_cons_self, fun e' he' => ?_⟩
    rcases List.mem_cons.mp (hperm.mem_iff.mpr he') with rfl | hrest
    · exact Int.le_refl _
    · exact List.rel_of_pairwise_cons hsort hrest

/-- The switch is engaged by the trigger of an earliest event. -/
theorem exists_earliest (hne : events ≠ []) : ∃ e, Earliest events e ∧ fromEvents events = some e.trigger := by
  rcases hhead : (byTime events).head? with - | e
  · have hnil := List.head?_eq_none_iff.mp hhead
    have hperm := byTime_perm events
    rw [hnil] at hperm
    exact absurd hperm.nil_eq.symm hne
  · refine ⟨e, earliest_of_head hhead, ?_⟩
    rw [fromEvents_eq_head, hhead, Option.map_some]

/-- An earliest event that is listed first once more decides the trigger. -/
theorem fromEvents_cons (h : Earliest events e) : fromEvents (e :: events) = some e.trigger := by
  have hinsert : byTime (e :: events) = (byTime events).orderedInsert
      (fun a b => a.triggeredAt.instant ≤ b.triggeredAt.instant) e := rfl
  have hsort : byTime (e :: events) = e :: byTime events := by
    have hperm := byTime_perm events
    rw [hinsert]
    cases hlist : byTime events with
    | nil => rfl
    | cons first rest =>
      rw [hlist] at hperm
      exact List.orderedInsert_cons_of_le _ rest (h.2 first (hperm.mem_iff.mp List.mem_cons_self))
  rw [fromEvents_eq_head, hsort, List.head?_cons, Option.map_some]

/-- Every order and duplication of the events gives the same trigger. -/
def AnyOrder (events : List (KillSwitchEvent K)) : Prop :=
  ∀ events', (∀ e, e ∈ events' ↔ e ∈ events) → fromEvents events' = fromEvents events

theorem Earliest.congr (h : ∀ e, e ∈ events' ↔ e ∈ events) (he : Earliest events' e) : Earliest events e :=
  ⟨(h e).mp he.1, fun e' he' => he.2 e' ((h e').mpr he')⟩

/-- The trigger does not depend on the order exactly when the earliest events have one. -/
theorem anyOrder_iff : AnyOrder events ↔ ∀ e e', Earliest events e → Earliest events e' → e.trigger = e'.trigger := by
  constructor
  · intro h e e' he he'
    have hmem : ∀ {x}, Earliest events x → ∀ y, y ∈ x :: events ↔ y ∈ events := by
      intro x hx y
      rw [List.mem_cons, or_iff_right_of_imp]
      rintro rfl
      exact hx.1
    have hsame := (h _ (hmem he)).trans (h _ (hmem he')).symm
    rw [fromEvents_cons he, fromEvents_cons he'] at hsame
    exact Option.some.inj hsame
  · intro h events' hsame
    rcases eq_or_ne events [] with rfl | hne
    · have hnil : events' = [] := List.eq_nil_iff_forall_not_mem.mpr fun e he => List.not_mem_nil ((hsame e).mp he)
      rw [hnil]
    · have hne' : events' ≠ [] := by
        rintro rfl
        exact hne (List.eq_nil_iff_forall_not_mem.mpr fun e he => List.not_mem_nil ((hsame e).mpr he))
      obtain ⟨e, he, htrigger⟩ := exists_earliest hne
      obtain ⟨e', he', htrigger'⟩ := exists_earliest hne'
      rw [htrigger, htrigger', h e' e (he'.congr hsame) he]

end KillSwitch

namespace Sink
open Store KillSwitch

variable {K V : Type} [Field K] [LinearOrder K] {sha256 : String → Sha256Hex} {json : AuditJson K} {db : RunTables K V}
  {runId : UUID} {r : RunRow K} {e : KillSwitchEvent K} {events order : List (KillSwitchEvent K)}

/-! ### The run's status -/

/-- The reason that the run's status carries. -/
def statusReason? (db : RunTables K V) (runId : UUID) : Option String := (db.run? runId).bind (·.statusReason)

/-- The halts are those of the list, in any order and any number of times. -/
def SameHalts (order events : List (KillSwitchEvent K)) : Prop := ∀ e, e ∈ order ↔ e ∈ events

/-- The switch has one trigger whatever the order of the events, and the run's status names it once the halts have
    committed in this order. -/
structure TriggerAgrees (sha256 : String → Sha256Hex) (json : AuditJson K) (db : RunTables K V) (runId : UUID)
    (order : List (KillSwitchEvent K)) : Prop where
  anyOrder : AnyOrder order
  named : ∀ trigger, fromEvents order = some trigger →
    statusReason? (runHalts sha256 json db order) runId = some (haltReason trigger)

/-- The first halt of a committed, anchored or executed run names the reason for good. -/
theorem statusReason_runHalts (hr : db.run? runId = some r) (hstatus : r.status ∈ haltable) (hnone : Unhalted db runId)
    (he : e.runId = runId) (rest : List (KillSwitchEvent K)) :
    statusReason? (runHalts sha256 json db (e :: rest)) runId = some (haltReason e.trigger) := by
  subst he
  have hsome : (db.run? e.runId).isSome := by rw [hr, Option.isSome_some]
  have hstored : HaltsStored sha256 json e.runId [] db := HaltsStored.of_unhalted hsome hnone
  obtain ⟨db', moved, hrecord⟩ := recordHalt_succeeds hstored rfl fun x hx => absurd hx List.not_mem_nil
  have hhalted := (recordHalt_eq_ok hrecord).haltedBy hr hstatus
  have hlater : HaltedBy (run sha256 json db' (rest.map .recordHalt)) e.runId e.trigger :=
    hhalted.run (rest.map .recordHalt)
  have hrun : runHalts sha256 json db (e :: rest) = run sha256 json db' (rest.map .recordHalt) := by
    rw [runHalts, List.map_cons, run, List.foldl_cons, step_recordHalt hrecord, run]
  obtain ⟨r', hr', -, hreason⟩ := hlater.row
  rw [statusReason?, hrun, hr', Option.bind_some, hreason]

omit [Field K] [LinearOrder K] in
theorem Earliest.of_same (h : SameHalts order events) : Earliest order e ↔ Earliest events e :=
  ⟨KillSwitch.Earliest.congr h, KillSwitch.Earliest.congr fun e => (h e).symm⟩

/-- Switch and status agree for an order of commits exactly when every earliest event has the trigger of the halt that
    committed first. -/
theorem triggerAgrees_iff (hr : db.run? runId = some r) (hstatus : r.status ∈ haltable) (hnone : Unhalted db runId)
    (hids : ∀ e ∈ order, e.runId = runId) :
    TriggerAgrees sha256 json db runId order ↔
      ∀ e, Earliest order e → order.head?.map (·.trigger) = some e.trigger := by
  rcases order with - | ⟨first, rest⟩
  · refine ⟨fun _ e he => absurd he.1 List.not_mem_nil, fun _ => ⟨?_, ?_⟩⟩
    · exact anyOrder_iff.mpr fun e _ he => absurd he.1 List.not_mem_nil
    · intro trigger htrigger
      cases htrigger
  · have hreason : statusReason? (runHalts sha256 json db (first :: rest)) runId = some (haltReason first.trigger) :=
      statusReason_runHalts hr hstatus hnone (hids first List.mem_cons_self) rest
    obtain ⟨e₀, he₀, htrigger⟩ := exists_earliest (List.cons_ne_nil first rest)
    rw [List.head?_cons, Option.map_some]
    constructor
    · intro h e he
      have hnamed := h.named e₀.trigger htrigger
      rw [hreason] at hnamed
      have hfirst : first.trigger = e₀.trigger := haltReason_injective (Option.some.inj hnamed)
      rw [hfirst, anyOrder_iff.mp h.anyOrder e₀ e he₀ he]
    · intro h
      refine ⟨anyOrder_iff.mpr fun e e' he he' => Option.some.inj ((h e he).symm.trans (h e' he')), ?_⟩
      intro trigger htrigger'
      rw [htrigger'] at htrigger
      rw [hreason, Option.some.inj (h e₀ he₀), Option.some.inj htrigger]

/-- The halt state depends on the set of the halts alone exactly when they have one trigger. In one order of commits,
    the switch and the status agree exactly when every earliest event has the trigger of the halt that committed
    first. -/
theorem haltState_of_set (hr : db.run? runId = some r) (hstatus : r.status ∈ haltable) (hnone : Unhalted db runId)
    (hids : ∀ e ∈ events, e.runId = runId) :
    ((∀ order, SameHalts order events → TriggerAgrees sha256 json db runId order) ↔
      ∀ e ∈ events, ∀ e' ∈ events, e.trigger = e'.trigger) ∧
    ∀ order, SameHalts order events →
      (TriggerAgrees sha256 json db runId order ↔
        ∀ e, Earliest events e → order.head?.map (·.trigger) = some e.trigger) := by
  have hone : ∀ order, SameHalts order events →
      (TriggerAgrees sha256 json db runId order ↔
        ∀ e, Earliest events e → order.head?.map (·.trigger) = some e.trigger) := by
    intro order hsame
    rw [triggerAgrees_iff hr hstatus hnone fun e he => hids e ((hsame e).mp he)]
    exact forall_congr' fun e => by rw [Earliest.of_same hsame]
  refine ⟨⟨fun h => ?_, fun h order hsame => ?_⟩, hone⟩
  · -- an event that commits first names the status, so it has the trigger of every earliest event
    have hearliest : ∀ x ∈ events, ∀ e, Earliest events e → x.trigger = e.trigger := by
      intro x hx e he
      have hsame : SameHalts (x :: events) events := by
        intro y
        rw [List.mem_cons, or_iff_right_of_imp]
        rintro rfl
        exact hx
      exact Option.some.inj ((hone _ hsame).mp (h _ hsame) e he)
    intro e he e' he'
    obtain ⟨e₀, he₀, -⟩ := exists_earliest (List.ne_nil_of_mem he)
    rw [hearliest e he e₀ he₀, hearliest e' he' e₀ he₀]
  · refine (hone order hsame).mpr fun e he => ?_
    rcases order with - | ⟨first, rest⟩
    · exact absurd ((hsame e).mpr he.1) List.not_mem_nil
    · rw [List.head?_cons, Option.map_some, h first ((hsame first).mp List.mem_cons_self) e he.1]

/-! ### Two halts -/

section Two

/-- A manual halt that is recorded twice. -/
theorem haltState_of_set_manual :
    TriggerAgrees haltDigest haltJson committedTables ⟨1⟩ [manualHalt 1 true, manualHalt 1 true] := by
  have hsame : SameHalts [manualHalt 1 true, manualHalt 1 true] [manualHalt 1 true] := by
    intro e
    rw [List.mem_cons, or_iff_right_of_imp List.mem_singleton.mpr]
  have hr : committedTables.run? ⟨1⟩ = some (runAt .committed).toRunRow := rfl
  have hids : ∀ e ∈ [manualHalt 1 true], e.runId = ⟨1⟩ := by decide
  exact (haltState_of_set hr (by decide) committedTables_unhalted hids).1.mpr (by decide) _ hsame

/-- Two halts at one time: the switch has the trigger of the event that is listed first. Two at different times: the
    run's status names the later when it commits first, and the switch has the earlier. -/
theorem halts_disagree :
    fromEvents [staleHalt 1, manualHalt 1 true] = some .staleFeed ∧
    fromEvents [manualHalt 1 true, staleHalt 1] = some .manual ∧
    fromEvents [manualHalt 2 true, staleHalt 1] = some .staleFeed ∧
    statusReason? (runHalts haltDigest haltJson committedTables [manualHalt 2 true, staleHalt 1]) ⟨1⟩ =
      some (haltReason .manual) := ⟨rfl, rfl, rfl, rfl⟩

end Two

end Sink
end AsymmetricCommittee
