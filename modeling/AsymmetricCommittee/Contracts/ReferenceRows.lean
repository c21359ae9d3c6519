import AsymmetricCommittee.Contracts.Enums
import AsymmetricCommittee.Contracts.MarketData
import AsymmetricCommittee.Contracts.Records

/-! The stored references (`contracts/market_data.py`): the scoring reference of a run's symbol, the symbols that a halt
    needs marks for, and the mark of one of them. -/

namespace AsymmetricCommittee

/-- Whether a scoring reference was observed live or read from the session's trades. -/
inductive RefMode where
  | live
  | backtest
  deriving DecidableEq, Repr

/-- The columns of a scoring reference. -/
structure ExecutionReferenceRow extends Observed where
  runId : UUID
  symbolRef : Ticker
  refTime : Option AwareDatetime
  mode : RefMode
  sessionDate : Option Date
  availableAt : AwareDatetime
  sourceVersion : Version
  deriving DecidableEq

/-- `_evidence`: only a row without a calendar lacks its reference time and session, and a resolved backtest reference is a
    SIP trade with its time and tape. -/
def ExecutionReferenceRow.Valid (r : ExecutionReferenceRow) : Prop :=
  (r.status = .resolved → r.refTime.isSome ∧ r.sessionDate.isSome) ∧
  (r.refTime = none ∨ r.sessionDate = none → r.reason = some .calendarUncovered) ∧
  (r.mode = .backtest → r.status = .resolved → r.source = some .sipLast ∧ r.tradeTime.isSome ∧ r.tradeTape.isSome)

instance (r : ExecutionReferenceRow) : Decidable r.Valid := inferInstanceAs (Decidable (_ ∧ _ ∧ _))

/-- The insert-only scoring reference of one symbol of a run. -/
structure ExecutionReference extends ExecutionReferenceRow where
  valid : toExecutionReferenceRow.Valid
  deriving DecidableEq

/-- The canonical symbols a halt needs references for: sorted, unique and never none. -/
structure HaltSymbolSet where
  runId : UUID
  trigger : KillTrigger
  symbols : List Ticker
  symbolCount : Nat
  symbolsSha256 : Sha256Hex
  source : Label
  sourceVersion : Version
  resolvedAt : AwareDatetime
  nonempty : symbols ≠ []
  sorted : (symbols.map (·.val)).Pairwise (· < ·)
  counted : symbolCount = symbols.length

/-- The mark of one symbol of a halt; `observedAt` is when it was observed. -/
structure HaltReference extends Observed where
  runId : UUID
  trigger : KillTrigger
  symbolRef : Ticker
  observedAt : AwareDatetime
  lagSeconds : ℚ
  symbolSetSource : Label
  symbolSetVersion : Version
  availableAt : AwareDatetime
  sourceVersion : Version
  deriving DecidableEq

end AsymmetricCommittee
