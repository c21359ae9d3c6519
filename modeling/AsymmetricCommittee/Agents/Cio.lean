import AsymmetricCommittee.Config.Loader
import AsymmetricCommittee.Contracts.Verdicts
import AsymmetricCommittee.Lib.PyText
import Mathlib.Algebra.Order.Floor.Ring

/-! The CIO's veto stage (`agents/cio.py`): it approves, vetoes or flags each proposed name. The model that answers is
    any function from the messages so far to a reply. -/

namespace AsymmetricCommittee

/-- `CioDecisionLLM`: what the CIO answers, one decision for each name. -/
structure CioDecisionLLM where
  decisions : List CioNameDecision
  rationale : LongText
  unique_names : (decisions.map (·.entityToken)).Nodup

/-! ### Calls -/

/-- One message of a conversation. -/
structure Message where
  role : String
  content : String
  deriving DecidableEq, Repr

section Calls
variable (K : Type) [Field K] [LinearOrder K]

/-- `RunBudget`: what a run may cost and what it has cost. -/
structure RunBudget where
  maxUsd : Positive K
  spentUsd : K

structure ChatResponse where
  model : String
  content : String
  usage : Option (Usage K)

/-- How a call fails: for good after its retries, or with any other exception. -/
inductive CallFailure where
  | transient (error : String)
  | other

/-- What the text of a reply is: a decision, one that the schema refuses, or a text that makes the parser itself fail. -/
inductive Parsed where
  | decision (out : CioDecisionLLM)
  | refused (problem : String)
  | failed

variable {K}

def RunBudget.exceeded (self : RunBudget K) : Bool := self.maxUsd.val ≤ self.spentUsd

def RunBudget.charge (self : RunBudget K) (usd : K) : RunBudget K := { self with spentUsd := self.spentUsd + usd }

end Calls

namespace Cio

section Cio
variable {K : Type} [Field K] [LinearOrder K]

/-- `max_vetoes`: the epsilon absorbs float error. -/
def maxVetoes [FloorRing K] (names : Nat) (budget : K) : Int := ⌊names * budget + 1e-9⌋

/-- The tokens in sorted order, as Python writes a list of them. -/
def tokenList (tokens : List EntityToken) : String :=
  "[" ++ ", ".intercalate ((tokens.map (·.val)).insertionSort (· ≤ ·) |>.map fun t => "'" ++ t ++ "'") ++ "]"

def bookTokens (book : ProposedBook K) : List EntityToken := book.positions.map (·.entityToken)

def decidedTokens (decision : CioDecisionLLM) : List EntityToken := decision.decisions.map (·.entityToken)

/-- The names that a decision vetoes. -/
def vetoed (decision : CioDecisionLLM) : List EntityToken :=
  (decision.decisions.filter (·.action = .veto)).map (·.entityToken)

/-- Why a decision leaves the book as it is. -/
inductive Refusal where
  | coverage (missing unknown : List EntityToken)
  | miscalibration (vetoes : Nat) (limit : Int)
  | invalid (e : ValidationError)

/-- `_check_coverage`: what is missing and what is unknown. -/
def checkCoverage (book : ProposedBook K) (decision : CioDecisionLLM) : Except Refusal Unit :=
  let missing := (bookTokens book).filter fun t => t ∉ decidedTokens decision
  let unknown := (decidedTokens decision).filter fun t => t ∉ bookTokens book
  if missing = [] ∧ unknown = [] then .ok () else .error (.coverage missing unknown)

/-- `apply_cio_decision`: the vetoed names are removed. -/
def applyCioDecision [FloorRing K] (book : ProposedBook K) (decision : CioDecisionLLM) (maxVetoPct : K) :
    Except Refusal (ProposedBook K) :=
  match checkCoverage book decision with
  | .error e => .error e
  | .ok () =>
    let limit := maxVetoes book.positions.length maxVetoPct
    if limit < (vetoed decision).length then .error (.miscalibration (vetoed decision).length limit)
    else
      match ProposedBook.make book.runId book.asOf
          (book.positions.filter fun p => p.entityToken ∉ vetoed decision) with
      | .error e => .error (.invalid e)
      | .ok approved => .ok approved

/-- `render_input`, with the formats of a number and of a severity. -/
def renderInput (format3f : K → String) (book : ProposedBook K) (redTeam : EntityToken → Option RedTeamVerdictLLM) :
    String :=
  let row (p : ProposedPosition K) : String :=
    let bear := (redTeam p.entityToken).elim ("NA", "NA") fun rt => (rt.bearSeverity.value, rt.falsifiableRisk.val)
    "\t".intercalate [p.entityToken.val, p.sector.val, format3f p.pooledP.val, format3f p.targetWeight.val, bear.1, bear.2]
  "\n".intercalate ("entity_token\tsector\tpooled_p\tweight\tbear_severity\tfalsifiable_risk" :: book.positions.map row)

/-! ### The stage -/

/-- `CioResult`; an alert is how many names were vetoed and how many could be. -/
structure Result (K : Type) [Field K] [LinearOrder K] where
  book : ProposedBook K
  decision : Option CioDecision
  alert : Option (Nat × Int)
  costUsd : K
  deadLettered : Bool

/-- Why `run_cio` raises. -/
inductive CioError where
  | budgetExceeded
  | unknownServedModel
  | tier (slug : String)
  | usageUnavailable
  | validation
  | raised
  deriving DecidableEq

/-- What a call of `run_cio` is given. -/
structure Setting (K : Type) [Field K] [LinearOrder K] where
  client : List Message → Except CallFailure (ChatResponse K)
  /-- `CioDecisionLLM.model_validate(json.loads(·))`. -/
  validate : String → Parsed
  models : ModelsConfig K
  system : String
  promptVersion : Label
  maxVetoPct : K
  redTeam : EntityToken → Option RedTeamVerdictLLM
  format3f : K → String

/-- `run_cio` between two attempts: the messages so far, what the calls cost, the budget, the errors that were
    dead-lettered, how many calls were made and what they answered. -/
structure Talk (K : Type) [Field K] [LinearOrder K] where
  messages : List Message
  cost : K
  budget : Option (RunBudget K)
  deadLetters : List String
  calls : Nat
  answers : List (ChatResponse K)

namespace Talk

def exceeded (t : Talk K) : Bool := t.budget.elim false (·.exceeded)

def deadLetter (t : Talk K) (error : String) : Talk K := { t with deadLetters := t.deadLetters ++ [error] }

def called (t : Talk K) : Talk K := { t with calls := t.calls + 1 }

def answered (t : Talk K) (response : ChatResponse K) : Talk K :=
  { t.called with answers := t.answers ++ [response] }

def charge (t : Talk K) (usd : K) : Talk K := { t with cost := t.cost + usd, budget := t.budget.map (·.charge usd) }

/-- The repair prompt. -/
def reject (t : Talk K) (content problem : String) : Talk K :=
  { t with messages := t.messages ++ [⟨"assistant", content⟩,
      ⟨"user", "Your previous reply was rejected: " ++ problem ++
        ". Reply again with JSON that matches the schema and covers exactly the proposed names."⟩] }

end Talk

/-- The text of a refusal. -/
def Refusal.problem : Refusal → String
  | .coverage missing unknown =>
    "decisions must cover exactly the proposed names: missing " ++ tokenList missing ++ ", unknown " ++ tokenList unknown
  | .miscalibration vetoes limit =>
    "CIO issued " ++ toString vetoes ++ " vetoes, budget allows " ++ toString limit
  | .invalid _ => "duplicate position or gross exposure exceeds 1"

/-- `_envelope`; a slug that is too long for a label is refused. -/
def envelope (env : Setting K) (out : CioDecisionLLM) (book : ProposedBook K) (served : ServedModel K) :
    Except CioError CioDecision :=
  if h : served.slug.length ≤ 128 then
    .ok ⟨out.decisions, out.rationale, book.runId, book.asOf, env.promptVersion,
      ⟨served.slug, served.label h⟩, out.unique_names⟩
  else .error .validation

/-- The result of a decision that was read, in its envelope. -/
def decided (env : Setting K) (book : ProposedBook K) (out : CioDecisionLLM) (served : ServedModel K)
    (next : ProposedBook K) (alert : Option (Nat × Int)) (cost : K) : Except CioError (Result K) :=
  match envelope env out book served with
  | .error e => .error e
  | .ok decision => .ok ⟨next, some decision, alert, cost, false⟩

variable [FloorRing K]

/-- What a reply that is paid for leads to; `retry` is the next attempt. -/
def judge (env : Setting K) (book : ProposedBook K) (served : ServedModel K) (content : String) (t : Talk K)
    (retry : Talk K → Except CioError (Result K) × Talk K) : Except CioError (Result K) × Talk K :=
  match env.validate content with
  | .failed => (.error .raised, t)
  | .refused problem => retry (t.reject content problem)
  | .decision out =>
    match applyCioDecision book out env.maxVetoPct with
    | .ok approved => (decided env book out served approved none t.cost, t)
    | .error (.miscalibration vetoes limit) =>
      (decided env book out served book (some (vetoes, limit)) t.cost, t.deadLetter "cio_miscalibration")
    | .error e => retry (t.reject content e.problem)

/-- The attempts that are left. -/
def attempts (env : Setting K) (book : ProposedBook K) : Nat → Talk K → Except CioError (Result K) × Talk K
  | 0, t => (.ok ⟨book, none, none, t.cost, true⟩, t.deadLetter "unparseable")
  | n + 1, t =>
    if t.exceeded then (.error .budgetExceeded, t.deadLetter "budget_exceeded")
    else
      match env.client t.messages with
      | .error (.transient e) => (.ok ⟨book, none, none, t.cost, true⟩, t.called.deadLetter e)
      | .error .other => (.error .raised, t.called)
      | .ok response =>
        let t := t.answered response
        match env.models.modelForResponse response.model with
        | none => (.error .unknownServedModel, t)
        | some served =>
          if served.slug ∉ (env.models.tier .strong).allSlugs then (.error (.tier served.slug), t)
          else
            match served.callCost response.usage with
            | none => (.error .usageUnavailable, t)
            | some usd =>
              let t := t.charge usd
              -- the call that reaches the ceiling is paid for and not read
              if t.exceeded then (.error .budgetExceeded, t.deadLetter "budget_exceeded")
              else judge env book served response.content t (attempts env book n)

/-- `run_cio`: a call and at most one repair. -/
def runCio (env : Setting K) (book : ProposedBook K) (budget : Option (RunBudget K)) :
    Except CioError (Result K) × Talk K :=
  let start : Talk K :=
    ⟨[⟨"system", env.system⟩, ⟨"user", renderInput env.format3f book env.redTeam⟩], 0, budget, [], 0, []⟩
  if book.positions = [] then (.ok ⟨book, none, none, 0, false⟩, start) else attempts env book 2 start

end Cio
end Cio
end AsymmetricCommittee
