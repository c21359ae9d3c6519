import AsymmetricCommittee.Agents.AgentCall
import AsymmetricCommittee.Lib.SharedBudget

/-! The agents' calls and the CIO's, step by step on the budget that they share (`RunBudget`, `run_agent_call`, `run_cio`).
    Looking at the budget, calling the model and charging are steps of their own. -/

namespace AsymmetricCommittee

section Types
variable (K : Type) [Field K] [LinearOrder K]

/-- What `client.complete` returns or raises. -/
abbrev ClientReply : Type := Except CallFailure (ChatResponse K)

/-- A call on the shared budget. -/
abbrev OnBudget (α : Type) : Type := Program (spending (List Message) (ClientReply K) K) α

end Types

variable {K : Type} [Field K] [LinearOrder K]

/-- What a reply costs; none is not known, or no reply. -/
def ModelsConfig.price (models : ModelsConfig K) : ClientReply K → Option K
  | .error _ => none
  | .ok response => (models.modelForResponse response.model).bind fun served => served.callCost response.usage

namespace Runner
variable [IsStrictOrderedRing K] (b : Batch) (env : Setting K) (job : Job K)

/-- What a reply that is paid for leads to; `retry` is the next attempt. -/
def judgeBilled (latencyMs : Nat) (served : ServedModel K) (content : String) (t : Trial K)
    (retry : Trial K → OnBudget K (Outcome K × List String)) : OnBudget K (Outcome K × List String) :=
  match env.parse job.agent content with
  | .failed => .done (.raised, [])
  | .refused problem => retry (t.reject content problem .unparseable)
  | .output out =>
    let missing := unprovidedEvidence out.keyEvidence job.part
    if missing = [] then
      match b.envelope env job out served with
      | none => .done (.raised, [])
      | some v => .done (.verdict v t.cost false (some ⟨⟨t.cost, t.cost_nonneg⟩, t.tokensIn, t.tokensOut, some latencyMs⟩), [])
    else retry (t.reject content ("cited evidence not in the input: " ++ citations missing) .unprovidedEvidence)

/-- The attempts that are left. -/
def attemptsBilled (latencyMs : Nat) : Nat → Trial K → OnBudget K (Outcome K × List String)
  | 0, t => .done (.discarded t.cost (some t.reason), [])
  | n + 1, t => .call .exceeded fun (exceeded : Bool) =>
    if exceeded then .done (.aborting .budgetExceeded, ["budget_exceeded"])
    else .call (.send t.messages) fun (reply : ClientReply K) =>
      match reply with
      | .error (.transient e) => .done (.discarded t.cost (some .deadLettered), [e])
      | .error .other => .done (.raised, [])
      | .ok response =>
        match env.models.modelForResponse response.model with
        | none => .done (.aborting .unknownServedModel, [])
        | some served =>
          match h : served.callCost response.usage with
          | none => .done (.aborting .usageUnavailable, [])
          | some usd => .call (.charge usd) fun (breached : Bool) =>
            if breached then .done (.aborting .budgetExceeded, ["budget_exceeded"])
            else judgeBilled b env job latencyMs served response.content (t.pay response.usage usd (reply_nonneg h))
              (attemptsBilled latencyMs n)

/-- `run_agent_call`, on the budget of the run. -/
def callBilled (cached : Option (String × VerdictLLM K)) (latencyMs : Nat) : OnBudget K (Outcome K × List String) :=
  if job.part.agent ≠ job.agent then .done (.raised, [])
  else
    match cached.bind (b.fromCache env job) with
    | some (some hit) => .done (.verdict hit 0 true (some ⟨⟨0, nonNegative_zero K⟩, none, none, none⟩), [])
    | some none => .done (.raised, [])
    | none => attemptsBilled b env job latencyMs 2 ⟨[⟨"system", env.system job.agent⟩, ⟨"user", job.part.text⟩], 0, some 0,
        some 0, 0, .unparseable, nonNegative_zero K⟩

/-- How the steps of a call are answered by what it meets; the number is that of its paid attempts. -/
def Met.answer (met : Met K) : (c : (spending (List Message) (ClientReply K) K).Call) → Nat →
    (spending (List Message) (ClientReply K) K).Reply c × Nat
  | .exceeded, n => (met.exceeded n, n)
  | .send messages, n => (met.client n messages, n)
  | .charge _, n => (met.overspent n, n + 1)

variable {b env job}

section Steps
variable {α : Type} (met : Met K) (n : Nat)

omit [IsStrictOrderedRing K] in
theorem exec_exceeded (next : Bool → OnBudget K α) :
    (Program.call .exceeded next : OnBudget K α).exec met.answer n = (next (met.exceeded n)).exec met.answer n := rfl

omit [IsStrictOrderedRing K] in
theorem exec_send (messages : List Message) (next : ClientReply K → OnBudget K α) :
    (Program.call (.send messages) next : OnBudget K α).exec met.answer n =
      (next (met.client n messages)).exec met.answer n := rfl

omit [IsStrictOrderedRing K] in
theorem exec_charge (usd : K) (next : Bool → OnBudget K α) :
    (Program.call (.charge usd) next : OnBudget K α).exec met.answer n = (next (met.overspent n)).exec met.answer (n + 1) := rfl

end Steps

omit [IsStrictOrderedRing K] in
theorem exec_judgeBilled {met : Met K} {served : ServedModel K} {content : String} {t : Trial K}
    {retryBilled : Trial K → OnBudget K (Outcome K × List String)} {retry : Trial K → Outcome K × List String}
    (h : ∀ t', t'.calls = t.calls → ((retryBilled t').exec met.answer t.calls).1 = retry t') :
    ((judgeBilled b env job met.latencyMs served content t retryBilled).exec met.answer t.calls).1 =
      judge b env job met served content t retry := by
  unfold judgeBilled judge
  rcases env.parse job.agent content with out | problem | _
  · dsimp only
    by_cases hmissing : unprovidedEvidence out.keyEvidence job.part = []
    · rw [if_pos hmissing, if_pos hmissing]
      cases b.envelope env job out served with
      | none => rfl
      | some v => rfl
    · rw [if_neg hmissing, if_neg hmissing]
      exact h _ rfl
  · exact h _ rfl
  · rfl

theorem exec_attemptsBilled (met : Met K) (n : Nat) (t : Trial K) :
    ((attemptsBilled b env job met.latencyMs n t).exec met.answer t.calls).1 = attempts b env job met n t := by
  induction n generalizing t with
  | zero => rfl
  | succ n ih =>
    rw [attemptsBilled, exec_exceeded]
    cases hexceeded : met.exceeded t.calls with
    | true =>
      rw [attempts, if_pos hexceeded]
      rfl
    | false =>
      rw [if_neg Bool.false_ne_true, exec_send]
      have hattempts := Bool.eq_false_iff.mp hexceeded
      rcases hclient : met.client t.calls t.messages with (e | _) | response
      · rw [attempts, if_neg hattempts, hclient]
        rfl
      · rw [attempts, if_neg hattempts, hclient]
        rfl
      · dsimp only
        cases hserved : env.models.modelForResponse response.model with
        | none =>
          rw [attempts, if_neg hattempts, hclient]
          dsimp only
          rw [hserved]
          rfl
        | some served =>
          dsimp only
          split
          · next hnone =>
            rw [attempts_unpriced hattempts hclient hserved hnone]
            rfl
          · next usd husd =>
            rw [attempts_priced hattempts hclient hserved husd, exec_charge]
            cases met.overspent t.calls with
            | true => rfl
            | false =>
              exact exec_judgeBilled (t := t.pay response.usage usd (callCost_nonneg husd)) fun t' ht' => ht' ▸ ih t'

/-- Step by step a call does what it does at once. -/
theorem exec_callBilled (met : Met K) :
    ((callBilled b env job met.cached met.latencyMs).exec met.answer 0).1 = runAgentCall b env job met := by
  unfold callBilled runAgentCall
  split
  · rfl
  · rcases met.cached.bind (b.fromCache env job) with _ | (_ | hit)
    · exact exec_attemptsBilled met 2 _
    · rfl
    · rfl

/-! ### What a call pays -/

open Spenders (Pays owed cleared)

omit [IsStrictOrderedRing K] in
theorem pays_judgeBilled {price : ClientReply K → Option K} {latencyMs : Nat} {served : ServedModel K} {content : String}
    {t : Trial K} {retry : Trial K → OnBudget K (Outcome K × List String)}
    (h : ∀ t, Pays price (retry t) ∧ cleared (retry t) = false ∧ owed (retry t) = 0) :
    Pays price (judgeBilled b env job latencyMs served content t retry) ∧
      cleared (judgeBilled b env job latencyMs served content t retry) = false ∧
      owed (judgeBilled b env job latencyMs served content t retry) = 0 := by
  unfold judgeBilled
  rcases env.parse job.agent content with out | problem | _
  · dsimp only
    by_cases hmissing : unprovidedEvidence out.keyEvidence job.part = []
    · rw [if_pos hmissing]
      cases b.envelope env job out served with
      | none => exact ⟨trivial, rfl, rfl⟩
      | some v => exact ⟨trivial, rfl, rfl⟩
    · rw [if_neg hmissing]
      exact h _
  · exact h _
  · exact ⟨trivial, rfl, rfl⟩

theorem pays_attemptsBilled (latencyMs : Nat) (n : Nat) (t : Trial K) :
    Pays env.models.price (attemptsBilled b env job latencyMs n t) ∧
      cleared (attemptsBilled b env job latencyMs n t) = false ∧ owed (attemptsBilled b env job latencyMs n t) = 0 := by
  induction n generalizing t with
  | zero => exact ⟨trivial, rfl, rfl⟩
  | succ n ih =>
    rw [attemptsBilled]
    refine ⟨⟨fun exceeded => ?_, rfl⟩, rfl, rfl⟩
    cases exceeded with
    | true => exact ⟨trivial, rfl⟩
    | false =>
      refine ⟨fun reply => ?_, rfl⟩
      rcases reply with (e | _) | response
      · exact ⟨trivial, rfl, rfl⟩
      · exact ⟨trivial, rfl, rfl⟩
      · dsimp only [ModelsConfig.price]
        cases env.models.modelForResponse response.model with
        | none => exact ⟨trivial, rfl, rfl⟩
        | some served =>
          rw [Option.bind_some]
          dsimp only
          split
          · next hnone =>
            rw [hnone]
            exact ⟨trivial, rfl, rfl⟩
          · next usd husd =>
            refine ⟨⟨callCost_nonneg husd, fun breached => ?_⟩, rfl, (congrArg (·.getD 0) husd).symm⟩
            cases breached with
            | true => exact ⟨trivial, rfl, rfl⟩
            | false => exact pays_judgeBilled ih

/-- An agent's call pays for every reply whose model and usage are known. -/
theorem pays_callBilled (cached : Option (String × VerdictLLM K)) (latencyMs : Nat) :
    Pays env.models.price (callBilled b env job cached latencyMs) ∧
      cleared (callBilled b env job cached latencyMs) = false ∧ owed (callBilled b env job cached latencyMs) = 0 := by
  unfold callBilled
  split
  · exact ⟨trivial, rfl, rfl⟩
  · rcases cached.bind (b.fromCache env job) with _ | (_ | hit)
    · exact pays_attemptsBilled latencyMs 2 _
    · exact ⟨trivial, rfl, rfl⟩
    · exact ⟨trivial, rfl, rfl⟩

end Runner

namespace Cio
variable [FloorRing K] (env : Setting K) (book : ProposedBook K)

/-- What a reply that is paid for leads to; `retry` is the next attempt. -/
def judgeBilled (served : ServedModel K) (content : String) (t : Talk K)
    (retry : Talk K → OnBudget K (Except CioError (Result K) × Talk K)) : OnBudget K (Except CioError (Result K) × Talk K) :=
  match env.validate content with
  | .failed => .done (.error .raised, t)
  | .refused problem => retry (t.reject content problem)
  | .decision out =>
    match applyCioDecision book out env.maxVetoPct with
    | .ok approved => .done (decided env book out served approved none t.cost, t)
    | .error (.miscalibration vetoes limit) =>
      .done (decided env book out served book (some (vetoes, limit)) t.cost, t.deadLetter "cio_miscalibration")
    | .error e => retry (t.reject content e.problem)

/-- The attempts that are left. -/
def attemptsBilled : Nat → Talk K → OnBudget K (Except CioError (Result K) × Talk K)
  | 0, t => .done (.ok ⟨book, none, none, t.cost, true⟩, t.deadLetter "unparseable")
  | n + 1, t => .call .exceeded fun (exceeded : Bool) =>
    if exceeded then .done (.error .budgetExceeded, t.deadLetter "budget_exceeded")
    else .call (.send t.messages) fun (reply : ClientReply K) =>
      match reply with
      | .error (.transient e) => .done (.ok ⟨book, none, none, t.cost, true⟩, t.called.deadLetter e)
      | .error .other => .done (.error .raised, t.called)
      | .ok response =>
        match env.models.modelForResponse response.model with
        | none => .done (.error .unknownServedModel, t.answered response)
        | some served =>
          if served.slug ∉ (env.models.tier .strong).allSlugs then
            .done (.error (.tier served.slug), t.answered response)
          else
            match served.callCost response.usage with
            | none => .done (.error .usageUnavailable, t.answered response)
            | some usd => .call (.charge usd) fun (breached : Bool) =>
              if breached then .done (.error .budgetExceeded, ((t.answered response).charge usd).deadLetter "budget_exceeded")
              else judgeBilled env book served response.content ((t.answered response).charge usd) (attemptsBilled n)

/-- `run_cio`, on the budget of the run. -/
def runCioBilled : OnBudget K (Except CioError (Result K) × Talk K) :=
  let start : Talk K :=
    ⟨[⟨"system", env.system⟩, ⟨"user", renderInput env.format3f book env.redTeam⟩], 0, none, [], 0, []⟩
  if book.positions = [] then .done (.ok ⟨book, none, none, 0, false⟩, start) else attemptsBilled env book 2 start

/-- How the steps of `run_cio` are answered when no one else spends. -/
def answer : (c : (spending (List Message) (ClientReply K) K).Call) → RunBudget K →
    (spending (List Message) (ClientReply K) K).Reply c × RunBudget K
  | .exceeded, budget => (budget.exceeded, budget)
  | .send messages, budget => (env.client messages, budget)
  | .charge usd, budget => ((budget.charge usd).exceeded, budget.charge usd)

variable {env book} {budget : RunBudget K}

section Steps
variable {α : Type}

omit [FloorRing K] in
theorem exec_exceeded (next : Bool → OnBudget K α) :
    (Program.call .exceeded next : OnBudget K α).exec (answer env) budget = (next budget.exceeded).exec (answer env) budget := rfl

omit [FloorRing K] in
theorem exec_send (messages : List Message) (next : ClientReply K → OnBudget K α) :
    (Program.call (.send messages) next : OnBudget K α).exec (answer env) budget =
      (next (env.client messages)).exec (answer env) budget := rfl

omit [FloorRing K] in
theorem exec_charge (usd : K) (next : Bool → OnBudget K α) :
    (Program.call (.charge usd) next : OnBudget K α).exec (answer env) budget =
      (next (budget.charge usd).exceeded).exec (answer env) (budget.charge usd) := rfl

end Steps

/-- What a talk comes to on the shared budget is what it comes to with a budget of its own. -/
def Agrees (run : (Except CioError (Result K) × Talk K) × RunBudget K) (r : Except CioError (Result K) × Talk K) : Prop :=
  run.1.1 = r.1 ∧ run.1.2 = { r.2 with budget := none } ∧ r.2.budget = some run.2

theorem agrees_judgeBilled {served : ServedModel K} {content : String} {t : Talk K} (ht : t.budget = some budget)
    {retryBilled : Talk K → OnBudget K (Except CioError (Result K) × Talk K)}
    {retry : Talk K → Except CioError (Result K) × Talk K}
    (h : ∀ t', t'.budget = some budget → Agrees ((retryBilled { t' with budget := none }).exec (answer env) budget) (retry t')) :
    Agrees ((judgeBilled env book served content { t with budget := none } retryBilled).exec (answer env) budget)
      (judge env book served content t retry) := by
  unfold judgeBilled judge
  rcases env.validate content with out | problem | _
  · dsimp only
    rcases applyCioDecision book out env.maxVetoPct with (⟨_, _⟩ | ⟨_, _⟩ | _) | approved
    · exact h (t.reject content _) ht
    · exact ⟨rfl, rfl, ht⟩
    · exact h (t.reject content _) ht
    · exact ⟨rfl, rfl, ht⟩
  · exact h (t.reject content _) ht
  · exact ⟨rfl, rfl, ht⟩

theorem agrees_attemptsBilled (n : Nat) {t : Talk K} (ht : t.budget = some budget) :
    Agrees ((attemptsBilled env book n { t with budget := none }).exec (answer env) budget) (attempts env book n t) := by
  induction n generalizing t budget with
  | zero => exact ⟨rfl, rfl, ht⟩
  | succ n ih =>
    have hexceeded : t.exceeded = budget.exceeded := by rw [Talk.exceeded, ht]; rfl
    rw [attemptsBilled, attempts, exec_exceeded, hexceeded]
    cases budget.exceeded with
    | true => exact ⟨rfl, rfl, ht⟩
    | false =>
      rw [if_neg Bool.false_ne_true, if_neg Bool.false_ne_true, exec_send]
      rcases env.client t.messages with (e | _) | response
      · exact ⟨rfl, rfl, ht⟩
      · exact ⟨rfl, rfl, ht⟩
      · dsimp only
        cases env.models.modelForResponse response.model with
        | none => exact ⟨rfl, rfl, ht⟩
        | some served =>
          dsimp only
          by_cases hstrong : served.slug ∉ (env.models.tier .strong).allSlugs
          · rw [if_pos hstrong, if_pos hstrong]
            exact ⟨rfl, rfl, ht⟩
          · rw [if_neg hstrong, if_neg hstrong]
            cases served.callCost response.usage with
            | none => exact ⟨rfl, rfl, ht⟩
            | some usd =>
              have hcharged : ((t.answered response).charge usd).budget = some (budget.charge usd) := by
                show t.budget.map _ = _
                rw [ht]
                rfl
              have hover : ((t.answered response).charge usd).exceeded = (budget.charge usd).exceeded := by
                rw [Talk.exceeded, hcharged]
                rfl
              rw [exec_charge]
              dsimp only
              rw [hover]
              cases (budget.charge usd).exceeded with
              | true => exact ⟨rfl, rfl, hcharged⟩
              | false => exact agrees_judgeBilled hcharged fun t' ht' => ih ht'

/-- With the budget for itself the CIO's call does what `run_cio` does. -/
theorem agrees_runCioBilled (env : Setting K) (book : ProposedBook K) (budget : RunBudget K) :
    Agrees ((runCioBilled env book).exec (answer env) budget) (runCio env book (some budget)) := by
  unfold runCioBilled runCio
  dsimp only
  by_cases hnone : book.positions = []
  · rw [if_pos hnone, if_pos hnone]
    exact ⟨rfl, rfl, rfl⟩
  · rw [if_neg hnone, if_neg hnone]
    exact agrees_attemptsBilled 2 (t := ⟨_, 0, some budget, [], 0, []⟩) rfl

/-! ### What the CIO's call pays -/

open Spenders (Pays owed cleared)

/-- What a reply costs that the CIO's tier gave; none is not known, or no such reply. -/
def strongPrice (models : ModelsConfig K) : ClientReply K → Option K
  | .error _ => none
  | .ok response => (models.modelForResponse response.model).bind fun served =>
    if served.slug ∉ (models.tier .strong).allSlugs then none else served.callCost response.usage

theorem pays_judgeBilled {price : ClientReply K → Option K} {served : ServedModel K} {content : String} {t : Talk K}
    {retry : Talk K → OnBudget K (Except CioError (Result K) × Talk K)}
    (h : ∀ t, Pays price (retry t) ∧ cleared (retry t) = false ∧ owed (retry t) = 0) :
    Pays price (judgeBilled env book served content t retry) ∧
      cleared (judgeBilled env book served content t retry) = false ∧
      owed (judgeBilled env book served content t retry) = 0 := by
  unfold judgeBilled
  rcases env.validate content with out | problem | _
  · dsimp only
    rcases applyCioDecision book out env.maxVetoPct with (⟨_, _⟩ | ⟨_, _⟩ | _) | approved
    · exact h _
    · exact ⟨trivial, rfl, rfl⟩
    · exact h _
    · exact ⟨trivial, rfl, rfl⟩
  · exact h _
  · exact ⟨trivial, rfl, rfl⟩

theorem pays_attemptsBilled [IsStrictOrderedRing K] (n : Nat) (t : Talk K) :
    Pays (strongPrice env.models) (attemptsBilled env book n t) ∧ cleared (attemptsBilled env book n t) = false ∧
      owed (attemptsBilled env book n t) = 0 := by
  induction n generalizing t with
  | zero => exact ⟨trivial, rfl, rfl⟩
  | succ n ih =>
    rw [attemptsBilled]
    refine ⟨⟨fun exceeded => ?_, rfl⟩, rfl, rfl⟩
    cases exceeded with
    | true => exact ⟨trivial, rfl⟩
    | false =>
      refine ⟨fun reply => ?_, rfl⟩
      rcases reply with (e | _) | response
      · exact ⟨trivial, rfl, rfl⟩
      · exact ⟨trivial, rfl, rfl⟩
      · dsimp only [strongPrice]
        cases env.models.modelForResponse response.model with
        | none => exact ⟨trivial, rfl, rfl⟩
        | some served =>
          rw [Option.bind_some]
          dsimp only
          by_cases hstrong : served.slug ∉ (env.models.tier .strong).allSlugs
          · rw [if_pos hstrong, if_pos hstrong]
            exact ⟨trivial, rfl, rfl⟩
          · rw [if_neg hstrong, if_neg hstrong]
            cases hcost : served.callCost response.usage with
            | none => exact ⟨trivial, rfl, rfl⟩
            | some usd =>
              refine ⟨⟨Runner.callCost_nonneg hcost, fun breached => ?_⟩, rfl, rfl⟩
              cases breached with
              | true => exact ⟨trivial, rfl, rfl⟩
              | false => exact pays_judgeBilled ih

/-- The CIO's call pays for every reply of its tier whose usage is known. -/
theorem pays_runCioBilled [IsStrictOrderedRing K] (env : Setting K) (book : ProposedBook K) :
    Pays (strongPrice env.models) (runCioBilled env book) ∧ cleared (runCioBilled env book) = false ∧
      owed (runCioBilled env book) = 0 := by
  unfold runCioBilled
  dsimp only
  by_cases hnone : book.positions = []
  · rw [if_pos hnone]
    exact ⟨trivial, rfl, rfl⟩
  · rw [if_neg hnone]
    exact pays_attemptsBilled 2 _

end Cio
end AsymmetricCommittee
