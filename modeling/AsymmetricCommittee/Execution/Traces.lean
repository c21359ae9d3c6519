import AsymmetricCommittee.Execution.Gateway
import AsymmetricCommittee.Lib.Traces

/-! What execution asked and was answered. -/

namespace AsymmetricCommittee
variable {K : Type} [Field K] [LinearOrder K] {σ α : Type}

abbrev Trace (K : Type) [Field K] [LinearOrder K] : Type := List (Event (desk K))

/-- The request was made and the value came back. -/
def returned (r : Request K) (v : r.Value) : Event (desk K) := ⟨.request r, .ok v⟩

def failed (r : Request K) (f : Failure) : Event (desk K) := ⟨.request r, .error f⟩

theorem request_eq_of_returned {r r' : Request K} {v : r.Value} {v' : r'.Value} (h : returned r v = returned r' v') :
    r = r' := by
  have hcall := congrArg Event.call h
  simpa [returned] using hcall

@[simp] theorem returned_inj {r : Request K} {v v' : r.Value} : returned r v = returned r v' ↔ v = v' := by
  simp [returned]

@[simp] theorem returned_ne_failed {r r' : Request K} {v : r.Value} {f : Failure} : returned r v ≠ failed r' f := by
  intro h
  have hcall := congrArg Event.call h
  cases hcall
  simp [returned, failed] at h

section Rules
variable {C : Contract (desk K) (Trace K)} {ok : (desk K).Call → Trace K → Prop} {s : σ} {w : Trace K}
  {Q : Except ExecError α → σ → Trace K → Prop}

theorem meets_request_bind {r : Request K} {f : r.Value → Steps K σ α} (hok : ok (.request r) w)
    (hvalue : ∀ v, (f v).Meets (Contract.traced ok) s Q (w ++ [returned r v]))
    (herror : ∀ e, Q (.error (.raised e)) s (w ++ [failed r e])) : (request r >>= f).Meets (Contract.traced ok) s Q w := by
  refine Contract.stays_traced.mpr ⟨hok, fun reply w' hw' _ => ?_⟩
  subst hw'
  cases reply with
  | ok v => exact hvalue v
  | error e => exact Contract.stays_traced.mpr (herror e)

theorem meets_request {r : Request K} {Q : Except ExecError r.Value → σ → Trace K → Prop} (hok : ok (.request r) w)
    (hvalue : ∀ v, Q (.ok v) s (w ++ [returned r v])) (herror : ∀ e, Q (.error (.raised e)) s (w ++ [failed r e])) :
    (request r).Meets (Contract.traced ok) s Q w := by
  refine Contract.stays_traced.mpr ⟨hok, fun reply w' hw' _ => ?_⟩
  subst hw'
  cases reply with
  | ok v => exact Contract.stays_traced.mpr (hvalue v)
  | error e => exact Contract.stays_traced.mpr (herror e)

theorem meets_engage_bind {trigger : KillTrigger} {f : Unit → Steps K Switch α} {s : Switch}
    {Q : Except ExecError α → Switch → Trace K → Prop} (hok : ok (.engage trigger) w)
    (hf : (f ()).Meets (Contract.traced ok) { s with trigger := s.trigger.halt trigger } Q
      (w ++ [(⟨.engage trigger, ()⟩ : Event (desk K))])) :
    (engage trigger >>= f).Meets (Contract.traced ok) s Q w := by
  refine Contract.stays_traced.mpr ⟨hok, fun u w' hw' _ => ?_⟩
  subst hw'
  exact hf

theorem meets_clock_bind {f : AwareDatetime → Steps K σ α} (hok : ok .clock w)
    (hf : ∀ t, (f t).Meets (Contract.traced ok) s Q (w ++ [(⟨.clock, t⟩ : Event (desk K))])) :
    (clock >>= f).Meets (Contract.traced ok) s Q w := by
  refine Contract.stays_traced.mpr ⟨hok, fun t w' hw' _ => ?_⟩
  subst hw'
  exact hf t

end Rules

end AsymmetricCommittee
