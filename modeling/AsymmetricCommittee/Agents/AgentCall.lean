import AsymmetricCommittee.Agents.Cio
import AsymmetricCommittee.Agents.Runner

/-! One agent call (`agents/base.py`): a call and at most one repair. The cache, the model that answers and the budget
    that the calls of a run share are given with the call. -/

namespace AsymmetricCommittee
namespace Runner
open Partitions (Partition)

section Types
variable (K : Type) [Field K] [LinearOrder K]

/-- `AgentVerdictLLM | RedTeamVerdictLLM`. -/
inductive VerdictLLM where
  | vote (out : AgentVerdictLLM K)
  | red (out : RedTeamVerdictLLM)

/-- What the text of a reply is: an output, one that the schema refuses, or a text that makes the parser itself fail. -/
inductive Reply where
  | output (out : VerdictLLM K)
  | refused (problem : String)
  | failed

/-- What the calls of a run share. `parseVote` and `parseRed` are `model_validate(json.loads(·))` of their schema, `valid` is
    `verdict_valid` in the mode of the run. -/
structure Setting where
  models : ModelsConfig K
  parseVote : String → Except (Option String) (AgentVerdictLLM K)
  parseRed : String → Except (Option String) RedTeamVerdictLLM
  valid : AwareDatetime → ServedModel K → Bool
  system : AgentName → String
  promptVersion : AgentName → Label

/-- What one call meets: the entry of the cache, whether the budget is exceeded before an attempt and after its charge,
    the model that answers, and the time it takes. -/
structure Met where
  cached : Option (String × VerdictLLM K)
  exceeded : Nat → Bool
  overspent : Nat → Bool
  client : Nat → List Message → Except CallFailure (ChatResponse K)
  latencyMs : Nat

/-- A call between two attempts. -/
structure Trial where
  messages : List Message
  cost : K
  tokensIn : Option Nat
  tokensOut : Option Nat
  calls : Nat
  reason : DiscardReason
  cost_nonneg : 0 ≤ cost

end Types

variable {K : Type} [Field K] [LinearOrder K]

def VerdictLLM.keyEvidence : VerdictLLM K → List EvidenceRef
  | .vote out => out.keyEvidence
  | .red out => out.keyEvidence

/-- `_parse`, in the schema of the agent. -/
def Setting.parse (env : Setting K) (agent : AgentName) (content : String) : Reply K :=
  let read (r : Except (Option String) (VerdictLLM K)) : Reply K :=
    match r with
    | .ok out => .output out
    | .error (some problem) => .refused ("output did not match the schema: " ++ problem)
    | .error none => .failed
  if agent = .redTeam then read ((env.parseRed content).map .red) else read ((env.parseVote content).map .vote)

/-- `unprovided_evidence`: the citations of rows that the agent was not shown. -/
def unprovidedEvidence (evidence : List EvidenceRef) (part : Partition) : List EvidenceRef :=
  evidence.filter fun e => (e.source, e.rowId.val) ∉ part.evidence

/-- `_envelope`; a slug that is too long for a label is refused, and so is a vote of an agent that has none. -/
def Batch.envelope (b : Batch) (env : Setting K) (job : Job K) (out : VerdictLLM K) (served : ServedModel K) :
    Option (Verdict K) :=
  if h : served.slug.length ≤ 128 then
    let envelope : Envelope := ⟨b.runId, job.part.entityToken, job.part.asOf, env.promptVersion job.agent,
      ⟨served.slug, served.label h⟩, env.valid job.part.asOf served⟩
    match out with
    | .red out => if job.agent = .redTeam then some (.red ⟨out, envelope⟩) else none
    | .vote out => if hv : job.agent ∈ votingAgents then some (.vote ⟨out, envelope, job.agent, hv⟩) else none
  else none

/-- `_from_cache`: none is a miss; the envelope of a usable entry may still be refused. -/
def Batch.fromCache (b : Batch) (env : Setting K) (job : Job K) (entry : String × VerdictLLM K) :
    Option (Option (Verdict K)) :=
  match env.models.modelForResponse entry.1 with
  | none => none
  | some served =>
    if unprovidedEvidence entry.2.keyEvidence job.part = [] then some (b.envelope env job entry.2 served) else none

/-- The next attempt's messages, and why this one was rejected. -/
def Trial.reject (t : Trial K) (content problem : String) (reason : DiscardReason) : Trial K :=
  { t with
    messages := t.messages ++ [⟨"assistant", content⟩,
      ⟨"user", "Your previous reply was rejected: " ++ problem ++ ". Reply again with JSON that matches the " ++
        "schema, citing only evidence_id values that appear in the input table."⟩]
    reason := reason }

/-- The ids of the citations, as a rejection lists them. -/
def citations (evidence : List EvidenceRef) : String :=
  ", ".intercalate (evidence.map fun e => e.source.value ++ ":" ++ e.rowId.val)

variable [IsStrictOrderedRing K]

theorem callCost_nonneg {served : ServedModel K} {usage : Option (Usage K)} {usd : K}
    (h : served.callCost usage = some usd) : 0 ≤ usd := by
  unfold ServedModel.callCost at h
  split at h
  · cases h
  · split at h
    · next prompt completion _ _ =>
      cases h
      exact div_nonneg (add_nonneg (mul_nonneg (Nat.cast_nonneg prompt) served.inputPriceUsdPerMtok.property)
        (mul_nonneg (Nat.cast_nonneg completion) served.outputPriceUsdPerMtok.property)) (by norm_num)
    · obtain ⟨cost, -, rfl⟩ := Option.map_eq_some_iff.mp h
      exact cost.property

theorem reply_nonneg {response : ChatResponse K} {served : ServedModel K} {usd : K}
    (h : served.callCost response.usage = some usd) : 0 ≤ usd := callCost_nonneg h

/-- The call is paid for; a token count is known while every reply gives it. -/
def Trial.pay (t : Trial K) (usage : Option (Usage K)) (usd : K) (h : 0 ≤ usd) : Trial K :=
  { t with
    cost := t.cost + usd
    tokensIn := t.tokensIn.bind fun n => (usage.bind (·.promptTokens)).map (n + ·)
    tokensOut := t.tokensOut.bind fun n => (usage.bind (·.completionTokens)).map (n + ·)
    calls := t.calls + 1
    cost_nonneg := add_nonneg t.cost_nonneg h }

/-- What a reply that is paid for leads to; `retry` is the next attempt. -/
def judge (b : Batch) (env : Setting K) (job : Job K) (met : Met K) (served : ServedModel K) (content : String) (t : Trial K)
    (retry : Trial K → Outcome K × List String) : Outcome K × List String :=
  match env.parse job.agent content with
  | .failed => (.raised, [])
  | .refused problem => retry (t.reject content problem .unparseable)
  | .output out =>
    let missing := unprovidedEvidence out.keyEvidence job.part
    if missing = [] then
      match b.envelope env job out served with
      | none => (.raised, [])
      | some v => (.verdict v t.cost false (some ⟨⟨t.cost, t.cost_nonneg⟩, t.tokensIn, t.tokensOut, some met.latencyMs⟩), [])
    else retry (t.reject content ("cited evidence not in the input: " ++ citations missing) .unprovidedEvidence)

/-- The attempts that are left: how the call ends, and the errors of the dead letters that it pushes. -/
def attempts (b : Batch) (env : Setting K) (job : Job K) (met : Met K) : Nat → Trial K → Outcome K × List String
  | 0, t => (.discarded t.cost (some t.reason), [])
  | n + 1, t =>
    if met.exceeded t.calls then (.aborting .budgetExceeded, ["budget_exceeded"])
    else
      match met.client t.calls t.messages with
      | .error (.transient e) => (.discarded t.cost (some .deadLettered), [e])
      | .error .other => (.raised, [])
      | .ok response =>
        match env.models.modelForResponse response.model with
        | none => (.aborting .unknownServedModel, [])
        | some served =>
          match h : served.callCost response.usage with
          | none => (.aborting .usageUnavailable, [])
          | some usd =>
            let paid := t.pay response.usage usd (reply_nonneg h)
            -- the call that reaches the ceiling is paid for and not read
            if met.overspent t.calls then (.aborting .budgetExceeded, ["budget_exceeded"])
            else judge b env job met served response.content paid (attempts b env job met n)

section Priced
variable {b : Batch} {env : Setting K} {job : Job K} {met : Met K} {n : Nat} {t : Trial K} {response : ChatResponse K}
  {served : ServedModel K} (hexceeded : ¬met.exceeded t.calls = true) (hclient : met.client t.calls t.messages = .ok response)
  (hserved : env.models.modelForResponse response.model = some served)
include hexceeded hclient hserved

/-- A reply without usage ends the call. -/
theorem attempts_unpriced (hnone : served.callCost response.usage = none) :
    attempts b env job met (n + 1) t = (.aborting .usageUnavailable, []) := by
  rw [attempts, if_neg hexceeded, hclient]
  dsimp only
  rw [hserved]
  dsimp only
  split
  · rfl
  · next usd husd =>
    rw [hnone] at husd
    cases husd

/-- A reply is paid for, and read unless that reaches the ceiling. -/
theorem attempts_priced {usd : K} (husd : served.callCost response.usage = some usd) :
    attempts b env job met (n + 1) t = if met.overspent t.calls then (.aborting .budgetExceeded, ["budget_exceeded"])
      else judge b env job met served response.content (t.pay response.usage usd (reply_nonneg husd))
        (attempts b env job met n) := by
  rw [attempts, if_neg hexceeded, hclient]
  dsimp only
  rw [hserved]
  dsimp only
  split
  · next hnone =>
    rw [husd] at hnone
    cases hnone
  · next usd' husd' =>
    obtain rfl : usd = usd' := Option.some.inj (husd.symm.trans husd')
    rfl

end Priced

/-- `run_agent_call`: how it ends, and the errors of the dead letters that it pushes. -/
def runAgentCall (b : Batch) (env : Setting K) (job : Job K) (met : Met K) : Outcome K × List String :=
  if job.part.agent ≠ job.agent then (.raised, [])
  else
    match met.cached.bind (b.fromCache env job) with
    | some (some hit) => (.verdict hit 0 true (some ⟨⟨0, nonNegative_zero K⟩, none, none, none⟩), [])
    | some none => (.raised, [])
    | none => attempts b env job met 2 ⟨[⟨"system", env.system job.agent⟩, ⟨"user", job.part.text⟩], 0, some 0, some 0, 0,
        .unparseable, nonNegative_zero K⟩

/-! ### A batch of such calls -/

/-- What happens next in a batch: a job starts, gets through the gate, or its call has met all that it meets. -/
inductive Turn (K : Type) [Field K] [LinearOrder K] where
  | start (i : Nat)
  | enter (i : Nat)
  | finish (i : Nat) (met : Met K)

/-- The move that a turn is. -/
def Turn.move (b : Batch) (env : Setting K) (jobs : List (Job K)) : Turn K → Move K
  | .start i => .start i
  | .enter i => .enter i
  | .finish i met =>
    match jobs[i]? with
    | some job => .finish i (runAgentCall b env job met).1
    | none => .finish i .raised

/-- The dead letters that the call of a turn pushes. -/
def Turn.letters (b : Batch) (env : Setting K) (jobs : List (Job K)) : Turn K → List (Job K × String)
  | .finish i met =>
    match jobs[i]? with
    | some job => (runAgentCall b env job met).2.map fun error => (job, error)
    | none => []
  | .start _ => []
  | .enter _ => []

end Runner
end AsymmetricCommittee
