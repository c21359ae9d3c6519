import AsymmetricCommittee.Agents.VerdictCache
import AsymmetricCommittee.Theorems.BatchAccounting
import AsymmetricCommittee.Theorems.RunStatus

/-! What a verdict may cite and what the cache may hold. There are three ways to a verdict: an entry of the cache, the first
    reply and the repair. Each is checked against the rows that the agent was shown, and only a reply that passed both checks
    is written back. -/

namespace AsymmetricCommittee
namespace Runner
open Partitions (Partition)

/-! ### Keys -/

section Keys
variable {py : PyText} {agent agent' : AgentName} {version version' model model' hash hash' input input' : String}

/-- One tuple's prompt version goes on into its model where the other's ends. -/
def Shifted (version model version' model' : String) : Prop :=
  ∃ x : String, version' = version ++ keySeparator ++ x ∧ model = x ++ keySeparator ++ model'

theorem enumValue_injective : Function.Injective AgentName.enumValue := by
  intro a b h
  cases a <;> cases b <;> first | rfl | exact absurd h (by decide)

theorem separator_free (agent : AgentName) : '\x1f' ∉ agent.enumValue.toList := by
  cases agent <;> decide

/-- Two texts around a separator: the separators are one, or one lies in a part of the other. -/
theorem append_sep_inj {α : Type*} {sep : α} {u v u' v' : List α} (h : u ++ sep :: v = u' ++ sep :: v') :
    (u = u' ∧ v = v') ∨ (∃ x, u' = u ++ sep :: x ∧ v = x ++ sep :: v') ∨ ∃ x, u = u' ++ sep :: x ∧ v' = x ++ sep :: v := by
  rcases List.append_eq_append_iff.mp h with ⟨x, hu, hv⟩ | ⟨x, hu, hv⟩
  · cases x with
    | nil =>
      rw [List.append_nil] at hu
      exact .inl ⟨hu.symm, (List.cons.inj hv).2⟩
    | cons c x =>
      obtain ⟨rfl, hrest⟩ := List.cons.inj hv
      exact .inr (.inl ⟨x, hu, hrest⟩)
  · cases x with
    | nil =>
      rw [List.append_nil] at hu
      exact .inl ⟨hu, (List.cons.inj hv).2.symm⟩
    | cons c x =>
      obtain ⟨rfl, hrest⟩ := List.cons.inj hv
      exact .inr (.inr ⟨x, hu, hrest⟩)

theorem shifted_iff : Shifted version model version' model' ↔ ∃ x : List Char,
    version'.toList = version.toList ++ '\x1f' :: x ∧ model.toList = x ++ '\x1f' :: model'.toList := by
  constructor
  · rintro ⟨x, rfl, rfl⟩
    exact ⟨x.toList, by simp [keySeparator], by simp [keySeparator]⟩
  · rintro ⟨x, hversion, hmodel⟩
    refine ⟨String.ofList x, ?_, ?_⟩
    · rw [← String.toList_inj, hversion]
      simp [keySeparator]
    · rw [← String.toList_inj, hmodel]
      simp [keySeparator]

/-- The parts of a key: the agent and the two hashes are told apart, and the prompt version and the model up to where
    one ends. -/
theorem keyParts_inj (hhash : hash.length = hash'.length) (hinput : input.length = input'.length) :
    keySeparator.intercalate [agent.enumValue, version, model, hash, input] =
        keySeparator.intercalate [agent'.enumValue, version', model', hash', input'] ↔
      (agent = agent' ∧ hash = hash' ∧ input = input') ∧
        ((version = version' ∧ model = model') ∨ Shifted version model version' model' ∨
          Shifted version' model' version model) := by
  have hparts (a v m c i : String) : (keySeparator.intercalate [a, v, m, c, i]).toList =
      a.toList ++ '\x1f' :: (v.toList ++ '\x1f' :: m.toList ++ '\x1f' :: c.toList ++ '\x1f' :: i.toList) := by
    simp [keySeparator]
  rw [← String.toList_inj, hparts, hparts, shifted_iff, shifted_iff]
  constructor
  · intro h
    rcases append_sep_inj h with ⟨hagent, h⟩ | ⟨x, hagent, -⟩ | ⟨x, hagent, -⟩
    · obtain ⟨h, hi⟩ := List.append_inj' h (by simp only [List.length_cons, String.length_toList, hinput])
      obtain ⟨h, hc⟩ := List.append_inj' h (by simp only [List.length_cons, String.length_toList, hhash])
      refine ⟨⟨enumValue_injective (String.toList_inj.mp hagent), String.toList_inj.mp (List.cons.inj hc).2,
        String.toList_inj.mp (List.cons.inj hi).2⟩, ?_⟩
      rcases append_sep_inj h with ⟨hv, hm⟩ | ⟨x, hv, hm⟩ | ⟨x, hv, hm⟩
      · exact .inl ⟨String.toList_inj.mp hv, String.toList_inj.mp hm⟩
      · exact .inr (.inl ⟨x, hv, hm⟩)
      · exact .inr (.inr ⟨x, hv, hm⟩)
    · exact absurd (hagent ▸ List.mem_append_right _ List.mem_cons_self) (separator_free agent')
    · exact absurd (hagent ▸ List.mem_append_right _ List.mem_cons_self) (separator_free agent)
  · rintro ⟨⟨rfl, rfl, rfl⟩, ⟨rfl, rfl⟩ | ⟨x, hv, hm⟩ | ⟨x, hv, hm⟩⟩
    · rfl
    · rw [hv, hm]
      simp
    · rw [hv, hm]
      simp

/-- Keys are equal iff the tuples are, or differ only in where the prompt version ends and the model begins. -/
theorem cacheKey_eq_iff (hpy : Function.Injective py.sha256) (agent agent' : AgentName)
    (version model version' model' : String) (hash input hash' input' : Sha256Hex) :
    cacheKey py agent version model hash.val input.val = cacheKey py agent' version' model' hash'.val input'.val ↔
      (agent = agent' ∧ hash = hash' ∧ input = input') ∧
        ((version = version' ∧ model = model') ∨ Shifted version model version' model' ∨
          Shifted version' model' version model) := by
  have hlength (x : Sha256Hex) : x.val.length = 64 := of_decide_eq_true (Bool.and_eq_true_iff.mp x.property).1
  rw [cacheKey, cacheKey, String.append_right_inj, hpy.eq_iff, keyParts_inj ((hlength _).trans (hlength _).symm)
    ((hlength _).trans (hlength _).symm), Subtype.ext_iff, Subtype.ext_iff]

/-- Distinct tuples have one key only where the separator stands in a prompt version and in a model. -/
theorem cacheKey_injective (hpy : Function.Injective py.sha256) (agent agent' : AgentName)
    (version model version' model' : String) (hash input hash' input' : Sha256Hex)
    (h : cacheKey py agent version model hash.val input.val = cacheKey py agent' version' model' hash'.val input'.val) :
    (agent = agent' ∧ hash = hash' ∧ input = input' ∧
        version ++ keySeparator ++ model = version' ++ keySeparator ++ model') ∧
      ((¬∃ v ∈ [version, version'], '\x1f' ∈ v.toList) ∨ (¬∃ m ∈ [model, model'], '\x1f' ∈ m.toList) →
        version = version' ∧ model = model') := by
  obtain ⟨⟨rfl, rfl, rfl⟩, hshift⟩ := (cacheKey_eq_iff hpy ..).mp h
  have hmem {v m v' m' : String} (hs : Shifted v m v' m') : '\x1f' ∈ v'.toList ∧ '\x1f' ∈ m.toList := by
    obtain ⟨x, hv, hm⟩ := shifted_iff.mp hs
    exact ⟨hv ▸ List.mem_append_right _ List.mem_cons_self, hm ▸ List.mem_append_right _ List.mem_cons_self⟩
  have hjoin {v m v' m' : String} (hs : Shifted v m v' m') : v ++ keySeparator ++ m = v' ++ keySeparator ++ m' := by
    obtain ⟨x, rfl, rfl⟩ := hs
    simp only [String.append_assoc]
  rcases hshift with ⟨rfl, rfl⟩ | hs | hs
  · exact ⟨⟨rfl, rfl, rfl, rfl⟩, fun _ => ⟨rfl, rfl⟩⟩
  · refine ⟨⟨rfl, rfl, rfl, hjoin hs⟩, fun hfree => ?_⟩
    rcases hfree with hfree | hfree
    · exact absurd ⟨version', by simp, (hmem hs).1⟩ hfree
    · exact absurd ⟨model, by simp, (hmem hs).2⟩ hfree
  · refine ⟨⟨rfl, rfl, rfl, (hjoin hs).symm⟩, fun hfree => ?_⟩
    rcases hfree with hfree | hfree
    · exact absurd ⟨version, by simp, (hmem hs).1⟩ hfree
    · exact absurd ⟨model', by simp, (hmem hs).2⟩ hfree

end Keys

/-- A library whose digest is the text. -/
def readableDigests : PyText := { Partitions.plainText with sha256 := id }

/-- The separator in a model's name. -/
theorem cacheKey_shifted :
    cacheKey readableDigests .value "v1" "a\x1fb" Sink.zeroHex.val Sink.zeroHex.val =
      cacheKey readableDigests .value "v1\x1fa" "b" Sink.zeroHex.val Sink.zeroHex.val :=
  (cacheKey_eq_iff Function.injective_id ..).mpr ⟨⟨rfl, rfl, rfl⟩, .inr (.inl ⟨"a", by decide, by decide⟩)⟩

theorem cacheKey_collides : ¬∀ version model version' model' : String,
    cacheKey readableDigests .value version model Sink.zeroHex.val Sink.zeroHex.val =
        cacheKey readableDigests .value version' model' Sink.zeroHex.val Sink.zeroHex.val →
      version = version' ∧ model = model' := by
  intro h
  exact absurd (h _ _ _ _ cacheKey_shifted).1 (by decide)

theorem cacheKey_of_shifted : "v1" ++ keySeparator ++ "a\x1fb" = "v1\x1fa" ++ keySeparator ++ "b" :=
  (cacheKey_injective Function.injective_id _ _ _ _ _ _ Sink.zeroHex Sink.zeroHex Sink.zeroHex Sink.zeroHex
    cacheKey_shifted).1.2.2.2

/-! ### One call -/

section Call
variable {K : Type} [Field K] [LinearOrder K] {py : PyText} {b : Batch} {env : Setting K} {job : Job K}
  {cache : Option (Cache K)} {met : Met K}

/-- The citations of a verdict. -/
def citedBy : Verdict K → List EvidenceRef
  | .vote v => v.keyEvidence
  | .red v => v.keyEvidence

/-- Every citation names a row of the partition. -/
def Shown (part : Partition) (evidence : List EvidenceRef) : Prop := ∀ e ∈ evidence, (e.source, e.rowId.val) ∈ part.evidence

theorem shown_of_unprovided {evidence : List EvidenceRef} {part : Partition} (h : unprovidedEvidence evidence part = []) :
    Shown part evidence := fun e he => by
  have hshown := List.filter_eq_nil_iff.mp h e he
  simpa using hshown

/-- A verdict cites what its output cites. -/
theorem citedBy_envelope {out : VerdictLLM K} {served : ServedModel K} {v : Verdict K}
    (h : b.envelope env job out served = some v) : citedBy v = out.keyEvidence := by
  unfold Batch.envelope at h
  split at h
  · split at h
    · split at h
      · cases h
        rfl
      · cases h
    · split at h
      · cases h
        rfl
      · cases h
  · cases h

/-- The replies of a call. -/
def repliesOf (events : List (CallEvent K)) : List (ChatResponse K) :=
  events.filterMap fun
    | .replied response => some response
    | _ => none

/-- The calls to a model. -/
def sentOf (events : List (CallEvent K)) : List (CallEvent K) :=
  events.filter fun
    | .replied _ => true
    | .unanswered => true
    | _ => false

/-- What a reply costs, if it is known. -/
def replyCost (env : Setting K) (response : ChatResponse K) : Option K :=
  (env.models.modelForResponse response.model).bind fun served => served.callCost response.usage

/-- What a call that returns reports as its cost. -/
def Outcome.returned : Outcome K → Option K
  | .verdict _ cost _ _ => some cost
  | .discarded cost _ => some cost
  | .aborting _ => none
  | .raised => none

variable (py env job cache) in
/-- An entry of a reply that passed both checks, under the key of the call. -/
def Passed (replies : List (ChatResponse K)) (key value : String) : Prop :=
  ∃ c ∈ cache, ∃ response ∈ replies, ∃ out served,
    key = cacheKey py job.agent (env.promptVersion job.agent).val c.requestedModel c.configHash (inputHash py job.part) ∧
      env.parse job.agent response.content = .output out ∧ Shown job.part out.keyEvidence ∧
      env.models.modelForResponse response.model = some served ∧ value = c.write out served

variable (py env job cache) in
/-- What holds of the rest of a call: `past` are the replies before it, `paid` what they cost, `n` the attempts left. -/
structure Sound (past : List (ChatResponse K)) (n : Nat) (paid : K) (r : Outcome K × List (CallEvent K)) : Prop where
  shown : ∀ v cost hit telemetry, r.1 = .verdict v cost hit telemetry → Shown job.part (citedBy v)
  calls : (sentOf r.2).length ≤ n
  cost : ∀ cost, r.1.returned = some cost → ∃ costs, (repliesOf r.2).mapM (replyCost env) = some costs ∧ cost = paid + costs.sum
  passed : ∀ key value, .stored key value ∈ r.2 → Passed py env job cache (past ++ repliesOf r.2) key value

/-- A call that ends without a verdict and does no more. -/
theorem sound_end {past : List (ChatResponse K)} {n : Nat} {paid : K} {o : Outcome K} {events : List (CallEvent K)}
    (hno : ∀ v cost hit telemetry, o ≠ .verdict v cost hit telemetry) (hcost : ∀ cost, o.returned = some cost → cost = paid)
    (hquiet : repliesOf events = [] ∧ ∀ key value, .stored key value ∉ events) (hcalls : (sentOf events).length ≤ n) :
    Sound py env job cache past n paid (o, events) where
  shown v cost hit telemetry h := absurd h (hno v cost hit telemetry)
  calls := hcalls
  cost cost h := ⟨[], by rw [hquiet.1]; rfl, by rw [List.sum_nil, add_zero, hcost cost h]⟩
  passed key value h := absurd h (hquiet.2 key value)

theorem sound_raised {past : List (ChatResponse K)} {n : Nat} {paid : K} {events : List (CallEvent K)}
    (hquiet : repliesOf events = [] ∧ ∀ key value, .stored key value ∉ events) (hcalls : (sentOf events).length ≤ n) :
    Sound py env job cache past n paid (.raised, events) :=
  sound_end (by simp) (by simp [Outcome.returned]) hquiet hcalls

theorem sound_aborting {past : List (ChatResponse K)} {n : Nat} {paid : K} {e : Aborting} {events : List (CallEvent K)}
    (hquiet : repliesOf events = [] ∧ ∀ key value, .stored key value ∉ events) (hcalls : (sentOf events).length ≤ n) :
    Sound py env job cache past n paid (.aborting e, events) :=
  sound_end (by simp) (by simp [Outcome.returned]) hquiet hcalls

theorem sound_discarded {past : List (ChatResponse K)} {n : Nat} {paid : K} {reason : Option DiscardReason}
    {events : List (CallEvent K)} (hquiet : repliesOf events = [] ∧ ∀ key value, .stored key value ∉ events)
    (hcalls : (sentOf events).length ≤ n) : Sound py env job cache past n paid (.discarded paid reason, events) :=
  sound_end (by simp) (by simp [Outcome.returned]) hquiet hcalls

theorem sound_judge {past : List (ChatResponse K)} {response : ChatResponse K} {served : ServedModel K} {n : Nat} {t : Trial K}
    {retry : Trial K → Outcome K × List (CallEvent K)} (hresponse : response ∈ past)
    (hserved : env.models.modelForResponse response.model = some served)
    (hretry : ∀ t' : Trial K, t'.cost = t.cost → Sound py env job cache past n t.cost (retry t')) :
    Sound py env job cache past n t.cost (judgeCached py b env job cache met served response.content t retry) := by
  unfold judgeCached
  split
  · exact sound_raised ⟨by simp [repliesOf], by simp⟩ (by simp [sentOf])
  · exact hretry _ rfl
  · next out hparse =>
    dsimp only
    split
    · next hmissing =>
      have hshown := shown_of_unprovided hmissing
      have hreplies : repliesOf (entryOf py env job cache out served) = [] := by cases cache <;> rfl
      have hsent : sentOf (entryOf py env job cache out served) = [] := by cases cache <;> rfl
      have hpassed : ∀ key value, .stored key value ∈ entryOf py env job cache out served →
          Passed py env job cache (past ++ repliesOf (entryOf py env job cache out served)) key value := by
        intro key value hmem
        cases hcache : cache with
        | none =>
          rw [hcache] at hmem
          cases hmem
        | some c =>
          rw [hcache] at hmem
          obtain ⟨rfl, rfl⟩ := CallEvent.stored.inj (List.mem_singleton.mp hmem)
          exact ⟨c, rfl, response, List.mem_append_left _ hresponse, out, served, rfl, hparse, hshown, hserved, rfl⟩
      split
      · refine ⟨by simp, by rw [hsent]; exact Nat.zero_le n, by simp [Outcome.returned], hpassed⟩
      · next v hv =>
        refine ⟨fun v' cost hit telemetry h => ?_, by rw [hsent]; exact Nat.zero_le n, fun cost h => ?_, hpassed⟩
        · obtain ⟨rfl, -⟩ := Outcome.verdict.inj h
          rw [citedBy_envelope hv]
          exact hshown
        · rw [hreplies]
          exact ⟨[], rfl, by rw [List.sum_nil, add_zero]; exact (Option.some.inj h).symm⟩
    · exact hretry _ rfl

/-- A call that is answered, and what follows the answer. -/
theorem sound_replied {past : List (ChatResponse K)} {response : ChatResponse K} {n : Nat} {paid usd : K}
    {r : Outcome K × List (CallEvent K)} (hcost : replyCost env response = some usd)
    (h : Sound py env job cache (past ++ [response]) n (paid + usd) r) :
    Sound py env job cache past (n + 1) paid (r.1, .replied response :: r.2) where
  shown := h.shown
  calls := Nat.succ_le_succ h.calls
  cost cost hret := by
    obtain ⟨costs, hcosts, hsum⟩ := h.cost cost hret
    refine ⟨usd :: costs, ?_, by rw [hsum, List.sum_cons, add_assoc]⟩
    have hreplies : repliesOf (.replied response :: r.2) = response :: repliesOf r.2 := rfl
    rw [hreplies, List.mapM_cons, hcost, hcosts]
    rfl
  passed key value hmem := by
    have hmem : .stored key value ∈ r.2 := by simpa using hmem
    have hreplies : past ++ repliesOf (.replied response :: r.2) = past ++ [response] ++ repliesOf r.2 := by
      rw [List.append_assoc]
      rfl
    rw [hreplies]
    exact h.passed key value hmem

/-- An answer that the call cannot go on with. -/
theorem sound_unpaid {past : List (ChatResponse K)} {response : ChatResponse K} {n : Nat} {paid : K} (e : Aborting) :
    Sound py env job cache past (n + 1) paid (.aborting e, [.replied response]) where
  shown v cost hit telemetry h := by simp at h
  calls := by simp [sentOf]
  cost cost h := by simp [Outcome.returned] at h
  passed key value h := by simp at h

/-- A hit cites only rows of the partition, whatever the entry says. -/
theorem shown_lookUp {hit : Verdict K} (h : lookUp py b env job cache = some (some hit)) : Shown job.part (citedBy hit) := by
  unfold lookUp at h
  split at h
  · cases h
  · split at h
    · cases h
    · split at h
      · cases h
      · cases h
      · unfold Batch.fromCache at h
        split at h
        · cases h
        · split at h
          · next hmissing =>
            rw [citedBy_envelope (Option.some.inj h)]
            exact shown_of_unprovided hmissing
          · cases h

/-- The errors of the dead letters. -/
def lettersOf (events : List (CallEvent K)) : List String :=
  events.filterMap fun
    | .letter error => some error
    | _ => none

/-- How a call ends, and its dead letters. -/
def forget (r : Outcome K × List (CallEvent K)) : Outcome K × List String := (r.1, lettersOf r.2)

theorem lettersOf_entryOf (out : VerdictLLM K) (served : ServedModel K) :
    lettersOf (entryOf py env job cache out served) = [] := by
  cases cache <;> rfl

theorem forget_judgeCached {served : ServedModel K} {content : String} {t : Trial K}
    {retry : Trial K → Outcome K × List (CallEvent K)} {retry' : Trial K → Outcome K × List String}
    (h : ∀ t, forget (retry t) = retry' t) :
    forget (judgeCached py b env job cache met served content t retry) = judge b env job met served content t retry' := by
  unfold judgeCached judge
  cases env.parse job.agent content with
  | failed => rfl
  | refused problem => exact h _
  | output out =>
    dsimp only
    split
    · cases b.envelope env job out served with
      | none => exact Prod.ext rfl (lettersOf_entryOf out served)
      | some v => exact Prod.ext rfl (lettersOf_entryOf out served)
    · exact h _

variable [IsStrictOrderedRing K]

/-- The attempts that are left. -/
theorem sound_attempts {past : List (ChatResponse K)} (n : Nat) {t : Trial K} :
    Sound py env job cache past n t.cost (attemptsCached py b env job cache met n t) := by
  induction n generalizing past t with
  | zero => exact sound_discarded ⟨by simp [repliesOf], by simp⟩ (by simp [sentOf])
  | succ n ih =>
    unfold attemptsCached
    split
    · exact sound_aborting ⟨by simp [repliesOf], by simp⟩ (by simp [sentOf])
    · split
      · exact sound_discarded ⟨by simp [repliesOf], by simp⟩ (by simp [sentOf])
      · exact sound_raised ⟨by simp [repliesOf], by simp⟩ (by simp [sentOf])
      · next response _ =>
        dsimp only
        split
        · exact sound_unpaid _
        · next served hserved =>
          split
          · exact sound_unpaid _
          · next usd husd =>
            have hcost : replyCost env response = some usd := by
              rw [replyCost, hserved]
              exact husd
            split
            · exact sound_replied hcost (sound_aborting ⟨by simp [repliesOf], by simp⟩ (by simp [sentOf]))
            · refine sound_replied hcost ?_
              exact sound_judge (t := t.pay response.usage usd (callCost_nonneg husd))
                (List.mem_append_right past (List.mem_singleton_self response)) hserved fun t' ht' => ht' ▸ ih

/-- The attempts are those of the call without its cache. -/
theorem forget_attemptsCached (n : Nat) (t : Trial K) :
    forget (attemptsCached py b env job cache met n t) = attempts b env job met n t := by
  induction n generalizing t with
  | zero => rfl
  | succ n ih =>
    unfold attemptsCached
    by_cases hexceeded : met.exceeded t.calls = true
    · rw [if_pos hexceeded, attempts, if_pos hexceeded]
      rfl
    · rw [if_neg hexceeded]
      rcases hclient : met.client t.calls t.messages with failure | response
      · rw [attempts, if_neg hexceeded, hclient]
        cases failure <;> rfl
      · dsimp only
        cases hserved : env.models.modelForResponse response.model with
        | none =>
          rw [attempts, if_neg hexceeded, hclient]
          dsimp only
          rw [hserved]
          rfl
        | some served =>
          dsimp only
          split
          · next hnone =>
            rw [attempts_unpriced hexceeded hclient hserved hnone]
            rfl
          · next usd husd =>
            rw [attempts_priced hexceeded hclient hserved husd]
            cases met.overspent t.calls with
            | true => rfl
            | false => exact forget_judgeCached ih

/-- A call that finds an entry is the call that is given it. -/
theorem forget_runCachedCall (hnamed : cache.any (fun c => c.requestedModel = "" || c.configHash = "") = false)
    (hcached : met.cached.bind (b.fromCache env job) = lookUp py b env job cache) :
    forget (runCachedCall py b env job cache met) = runAgentCall b env job met := by
  unfold runCachedCall runAgentCall
  rw [hnamed, hcached, if_neg Bool.false_ne_true]
  split
  · rfl
  · cases lookUp py b env job cache with
    | none => exact forget_attemptsCached 2 _
    | some hit => cases hit <;> rfl

variable (py b env job cache met)

/-- Whatever a call meets: a verdict cites only rows of the partition, at most two calls are made, what is returned as their
    cost is the sum of it, and what is written is the entry of a reply that passed both checks. -/
theorem runCachedCall_sound :
    (∀ v cost hit telemetry, (runCachedCall py b env job cache met).1 = .verdict v cost hit telemetry →
      ∀ e ∈ citedBy v, (e.source, e.rowId.val) ∈ job.part.evidence) ∧
    (sentOf (runCachedCall py b env job cache met).2).length ≤ 2 ∧
    (∀ cost, (runCachedCall py b env job cache met).1.returned = some cost → ∃ costs,
      (repliesOf (runCachedCall py b env job cache met).2).mapM (replyCost env) = some costs ∧ cost = costs.sum) ∧
    ∀ key value, .stored key value ∈ (runCachedCall py b env job cache met).2 →
      Passed py env job cache (repliesOf (runCachedCall py b env job cache met).2) key value := by
  have hsound : Sound py env job cache [] 2 0 (runCachedCall py b env job cache met) := by
    unfold runCachedCall
    split
    · exact sound_raised ⟨by simp [repliesOf], by simp⟩ (by simp [sentOf])
    · split
      · exact sound_raised ⟨by simp [repliesOf], by simp⟩ (by simp [sentOf])
      · split
        · next hit hhit =>
          refine ⟨fun v cost hit' telemetry h => ?_, by simp [sentOf], fun cost h => ⟨[], rfl, ?_⟩, by simp⟩
          · obtain ⟨rfl, -⟩ := Outcome.verdict.inj h
            exact shown_lookUp hhit
          · rw [List.sum_nil, add_zero]
            exact (Option.some.inj h).symm
        · exact sound_raised ⟨by simp [repliesOf], by simp⟩ (by simp [sentOf])
        · exact sound_attempts (t := ⟨[⟨"system", env.system job.agent⟩, ⟨"user", job.part.text⟩], 0, some 0, some 0, 0,
            .unparseable, le_rfl⟩) 2
  refine ⟨hsound.shown, hsound.calls, fun cost h => ?_, hsound.passed⟩
  obtain ⟨costs, hcosts, hsum⟩ := hsound.cost cost h
  exact ⟨costs, hcosts, hsum.trans (zero_add _)⟩

end Call

/-! ### A call that finds a corrupt entry and gets a reply from a model that is not in the list -/

section Sample
open Partitions (oneSecurity)

def valueJob : Job ℚ := ⟨.value, oneSecurity, ⟨.value, oneSecurity.entityToken, ⟨Renderer.day, 0⟩, "", ∅⟩⟩

def corruptCache : Cache ℚ := ⟨"m", "c", fun _ => some "", fun _ _ => .unusable, fun _ _ => ""⟩

theorem runCachedCall_sound_other :
    (∀ v cost hit telemetry, (runCachedCall readableDigests oneBatch silentSetting valueJob (some corruptCache)
        answeredByOther).1 = .verdict v cost hit telemetry →
      ∀ e ∈ citedBy v, (e.source, e.rowId.val) ∈ valueJob.part.evidence) ∧
    (sentOf (runCachedCall readableDigests oneBatch silentSetting valueJob (some corruptCache) answeredByOther).2).length ≤ 2 :=
  have h := runCachedCall_sound readableDigests oneBatch silentSetting valueJob (some corruptCache) answeredByOther
  ⟨h.1, h.2.1⟩

end Sample
end Runner
end AsymmetricCommittee
