import AsymmetricCommittee.Lib.Dict
import AsymmetricCommittee.Lib.Program
import AsymmetricCommittee.Risk.KillSwitch
import AsymmetricCommittee.Store.Material

/-! What execution asks of its surroundings (`execution/gateway.py`, and the protocols of the recorder, the store and the
    market). Every request to the broker, the store or a data source may fail; the clock and the sleeper do not. -/

namespace AsymmetricCommittee

/-- What a request raises: the broker's errors, or any other exception. -/
inductive Failure where
  | duplicateClientOrder
  | orderNotCancelable
  | broker
  | other
  deriving DecidableEq, Repr

/-- `isinstance(exc, BrokerError)`. -/
def Failure.isBroker : Failure → Bool
  | .other => false
  | _ => true

/-- What execution raises. -/
inductive ExecError where
  | raised (f : Failure)
  | cancelNotConfirmed
  | overfill
  | targetQuantity
  | equity (e : EquityError)
  | validation
  | notEligible
  | integrity
  | plan
  | marketView
  | evidenceMissing
  | assertion
  deriving DecidableEq, Repr

section Requests
variable (K : Type) [Field K] [LinearOrder K]

/-- What `submit_limit` and `submit_market` send; a market order has no limit price. -/
structure OrderRequest where
  clientOrderId : String
  symbol : String
  side : OrderSide
  qty : K
  limitPrice : Option K
  deriving DecidableEq

/-- One name to trade. -/
structure ExecutionTarget where
  runId : UUID
  securityId : SecurityId
  symbol : String
  side : OrderSide
  qty : K
  decisionPrice : K
  deriving DecidableEq

/-- What a market view is read from: the listed names of the universe with their tickers, every stored ticker with its
    security, and the last closes. -/
structure MarketRows where
  listed : Dict SecurityId String
  byTicker : Dict String SecurityId
  closes : SecurityId → Option K

inductive Request where
  | findByClientId (clientOrderId : String)
  | getOrder (brokerOrderId : Label)
  | submit (order : OrderRequest K)
  | cancelOrder (brokerOrderId : Label)
  | openOrders
  | positions
  | closePosition (symbol : String)
  | accountEquity
  | equityHistory
  | findExecution (clientOrderId : String)
  | recordExecutions (records : List (ExecutionRecord K))
  | loadRun (runId : UUID)
  | loadCommitmentMaterial (runId : UUID)
  | loadKillSwitchEvents (runId : UUID)
  | recordHalt (event : KillSwitchEvent K)
  | recordDlq (runId : UUID) (asOf : AwareDatetime) (error : ExecError)
  | markExecuted (runId : UUID) (endedAt : AwareDatetime)
  | marketRows (asOf : AwareDatetime)
  | reference (target : ExecutionTarget K)
  | feeds

variable {K}

/-- What each request returns. -/
@[reducible] def Request.Value : Request K → Type
  | .findByClientId _ => Option (BrokerOrder K)
  | .getOrder _ => BrokerOrder K
  | .submit _ => BrokerOrder K
  | .cancelOrder _ => Unit
  | .openOrders => List (BrokerOrder K)
  | .positions => Dict String K
  | .closePosition _ => Unit
  | .accountEquity => K × K
  | .equityHistory => List K
  | .findExecution _ => Option (ExecutionRecord K)
  | .recordExecutions _ => Unit
  | .loadRun _ => Option (RunRecord K)
  | .loadCommitmentMaterial _ => Option (CommitmentMaterial K)
  | .loadKillSwitchEvents _ => List (KillSwitchEvent K)
  | .recordHalt _ => Bool
  | .recordDlq _ _ _ => Unit
  | .markExecuted _ _ => Bool
  | .marketRows _ => MarketRows K
  | .reference _ => K × ReferenceSource
  | .feeds => FeedName → Option AwareDatetime

variable (K)

/-- A request, a look at the clock, a sleep of some microseconds, or the engaging of the kill switch, which leaves the
    process as it is but tells what it does later from what it did before. -/
inductive DeskCall where
  | request (r : Request K)
  | clock
  | sleep (micros : Int)
  | engage (trigger : KillTrigger)

variable {K}

@[reducible] def DeskCall.Reply : DeskCall K → Type
  | .request r => Except Failure r.Value
  | .clock => AwareDatetime
  | .sleep _ => Unit
  | .engage _ => Unit

variable (K)

/-- Everything execution calls. -/
abbrev desk : Interface where
  Call := DeskCall K
  Reply c := c.Reply

end Requests

section Steps
variable {K : Type} [Field K] [LinearOrder K] {σ : Type}

/-- Steps of execution, with a state of their own. -/
abbrev Steps (K σ α : Type) [Field K] [LinearOrder K] : Type := Act (desk K) σ ExecError α

/-- Make a request; what it raises is raised. -/
def request (r : Request K) : Steps K σ r.Value := do
  let reply : Except Failure r.Value ← Act.ask (I := desk K) (.request r)
  match reply with
  | .ok a => pure a
  | .error f => throw (.raised f)

theorem uses_request {ok : (desk K).Call → Prop} {r : Request K} (h : ok (.request r)) :
    (request r : Steps K σ r.Value).Uses ok :=
  (Act.uses_ask h).bind fun reply => match reply with
    | .ok _ => Act.uses_pure
    | .error _ => Act.uses_throw

def clock : Steps K σ AwareDatetime := Act.ask (I := desk K) .clock

def sleep (micros : Int) : Steps K σ Unit := Act.ask (I := desk K) (.sleep micros)

/-- The switch that the parts of an execution share, and whether a flatten was completed. -/
structure Switch where
  trigger : KillSwitch
  flattened : Bool
  deriving DecidableEq, Repr

/-- `KillSwitch.halt` of the shared switch. -/
def engage (trigger : KillTrigger) : Steps K Switch Unit := do
  Act.ask (I := desk K) (.engage trigger)
  modify fun switch => { switch with trigger := switch.trigger.halt trigger }

/-- Raise the error. -/
def orRaise {α : Type} : Except ExecError α → Steps K σ α
  | .ok a => pure a
  | .error e => throw e

end Steps
end AsymmetricCommittee
