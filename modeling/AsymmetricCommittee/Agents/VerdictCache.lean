import AsymmetricCommittee.Agents.AgentCall

/-! The verdict cache of an agent call (`agents/base.py`): the key of an entry, and the call with every reply that it gets and
    every entry that it writes. -/

namespace AsymmetricCommittee
namespace Runner
open Partitions (Partition)

/-- The separator of the parts of a key, U+001F. -/
def keySeparator : String := "\x1f"

/-- `cache_key`: it uses the requested model, as the model that serves is not known yet. -/
def cacheKey (py : PyText) (agent : AgentName) (promptVersion requestedModel configHash inputHash : String) : String :=
  "llm_eval:" ++ py.sha256
    (keySeparator.intercalate [agent.enumValue, promptVersion, requestedModel, configHash, inputHash])

/-- `Partition.input_hash`. -/
def inputHash (py : PyText) (part : Partition) : String := py.sha256 part.text

section Types
variable (K : Type) [Field K] [LinearOrder K]

/-- What the text of a cache entry is: a slug and an output in the agent's schema, an entry that is taken for a miss, or a
    text that makes the parser itself fail. -/
inductive EntryRead where
  | entry (slug : String) (out : VerdictLLM K)
  | unusable
  | failed

/-- The cache of a call: what the caller names it by, the content under its key, and how entries are read and written. -/
structure Cache where
  requestedModel : String
  configHash : String
  get : String → Option String
  read : AgentName → String → EntryRead K
  /-- `_cache_entry`. -/
  write : VerdictLLM K → ServedModel K → String

/-- What a call does: it is answered, it fails, it writes an entry, or it pushes a dead letter. -/
inductive CallEvent where
  | replied (response : ChatResponse K)
  | unanswered
  | stored (key value : String)
  | letter (error : String)

end Types

variable {K : Type} [Field K] [LinearOrder K]

/-- The entry that a reply leaves, if there is a cache. -/
def entryOf (py : PyText) (env : Setting K) (job : Job K) (cache : Option (Cache K)) (out : VerdictLLM K)
    (served : ServedModel K) : List (CallEvent K) :=
  match cache with
  | none => []
  | some c =>
    [.stored (cacheKey py job.agent (env.promptVersion job.agent).val c.requestedModel c.configHash (inputHash py job.part))
      (c.write out served)]

variable [IsStrictOrderedRing K] (py : PyText) (b : Batch) (env : Setting K) (job : Job K) (cache : Option (Cache K)) (met : Met K)

/-- What a reply that is paid for leads to. The entry is written before the verdict is put together. -/
def judgeCached (served : ServedModel K) (content : String) (t : Trial K)
    (retry : Trial K → Outcome K × List (CallEvent K)) : Outcome K × List (CallEvent K) :=
  match env.parse job.agent content with
  | .failed => (.raised, [])
  | .refused problem => retry (t.reject content problem .unparseable)
  | .output out =>
    let missing := unprovidedEvidence out.keyEvidence job.part
    if missing = [] then
      match b.envelope env job out served with
      | none => (.raised, entryOf py env job cache out served)
      | some v => (.verdict v t.cost false (some ⟨⟨t.cost, t.cost_nonneg⟩, t.tokensIn, t.tokensOut, some met.latencyMs⟩),
          entryOf py env job cache out served)
    else retry (t.reject content ("cited evidence not in the input: " ++ citations missing) .unprovidedEvidence)

/-- The attempts that are left. -/
def attemptsCached : Nat → Trial K → Outcome K × List (CallEvent K)
  | 0, t => (.discarded t.cost (some t.reason), [])
  | n + 1, t =>
    if met.exceeded t.calls then (.aborting .budgetExceeded, [.letter "budget_exceeded"])
    else
      match met.client t.calls t.messages with
      | .error (.transient e) => (.discarded t.cost (some .deadLettered), [.unanswered, .letter e])
      | .error .other => (.raised, [.unanswered])
      | .ok response =>
        let rest : Outcome K × List (CallEvent K) :=
          match env.models.modelForResponse response.model with
          | none => (.aborting .unknownServedModel, [])
          | some served =>
            match h : served.callCost response.usage with
            | none => (.aborting .usageUnavailable, [])
            | some usd =>
              let paid := t.pay response.usage usd (reply_nonneg h)
              if met.overspent t.calls then (.aborting .budgetExceeded, [.letter "budget_exceeded"])
              else judgeCached py b env job cache met served response.content paid (attemptsCached n)
        (rest.1, .replied response :: rest.2)

/-- What the cache has for the call: none is a miss, `some none` an entry whose verdict is refused or that the parser
    fails on. -/
def lookUp : Option (Option (Verdict K)) :=
  match cache with
  | none => none
  | some c =>
    match c.get (cacheKey py job.agent (env.promptVersion job.agent).val c.requestedModel c.configHash (inputHash py job.part)) with
    | none => none
    | some cached =>
      match c.read job.agent cached with
      | .unusable => none
      | .failed => some none
      | .entry slug out => b.fromCache env job (slug, out)

/-- `run_agent_call` with all that it does. -/
def runCachedCall : Outcome K × List (CallEvent K) :=
  if job.part.agent ≠ job.agent then (.raised, [])
  else if cache.any (fun c => c.requestedModel = "" || c.configHash = "") then (.raised, [])
  else
    match lookUp py b env job cache with
    | some (some hit) => (.verdict hit 0 true (some ⟨⟨0, nonNegative_zero K⟩, none, none, none⟩), [])
    | some none => (.raised, [])
    | none => attemptsCached py b env job cache met 2 ⟨[⟨"system", env.system job.agent⟩, ⟨"user", job.part.text⟩], 0, some 0,
        some 0, 0, .unparseable, nonNegative_zero K⟩

end Runner
end AsymmetricCommittee
