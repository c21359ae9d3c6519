import AsymmetricCommittee.Contracts.Enums
import Mathlib.Algebra.Order.Field.Basic
import Mathlib.Algebra.Order.Field.Rat

/-! The inter-stage contracts (`contracts/models.py`). A contract carries its field constraints and its
    validator as proofs, so that a value that pydantic refuses cannot be built; `make` is the validation.
    Floats are numbers of an ordered field. -/

namespace AsymmetricCommittee

/-! ### Scalars -/

/-- A 128-bit identifier. -/
structure UUID where
  int : Nat
  deriving DecidableEq, Repr

/-- A timezone-aware datetime: the instant and the UTC offset it is written in, in microseconds. Python
    compares aware datetimes by their instants. -/
structure AwareDatetime where
  instant : Int
  offset : Int
  deriving DecidableEq, Repr

/-- `t + timedelta(microseconds=delay)`. -/
def AwareDatetime.plus (t : AwareDatetime) (delay : Int) : AwareDatetime := ⟨t.instant + delay, t.offset⟩

@[simp] theorem AwareDatetime.instant_plus (t : AwareDatetime) (delay : Int) : (t.plus delay).instant = t.instant + delay := rfl

/-- `Label`: 1 to 128 characters. -/
abbrev Label := { s : String // 1 ≤ s.length ∧ s.length ≤ 128 }

/-- The pattern `^[A-Z]+_[0-9]{2,}$` within 32 characters. -/
def isEntityToken (s : String) : Bool :=
  let parts := s.toList.span fun c => 'A' ≤ c && c ≤ 'Z'
  s.length ≤ 32 && !parts.1.isEmpty &&
    match parts.2 with
    | '_' :: digits => 2 ≤ digits.length && digits.all fun c => '0' ≤ c && c ≤ '9'
    | _ => false

abbrev EntityToken := { s : String // isEntityToken s = true }

/-- `SecurityId`: an integer of at least 1. -/
abbrev SecurityId := { n : Int // 1 ≤ n }

/-- Securities are compared as integers. -/
instance : DecidableLE SecurityId := fun a b => Int.decLe a.val b.val

instance securityId_lawfulBEq : LawfulBEq SecurityId := inferInstance

instance entityToken_lawfulBEq : LawfulBEq EntityToken := inferInstance

section Numbers
variable (K : Type*) [Field K] [LinearOrder K]

/-- `MAX_POSITION`: the hard cap on any single position. -/
def maxPositionCap : K := 0.08

abbrev Probability := { x : K // 0 ≤ x ∧ x ≤ 1 }

abbrev Weight := { x : K // 0 ≤ x ∧ x ≤ maxPositionCap K }

abbrev NonNegative := { x : K // 0 ≤ x }

theorem nonNegative_zero : (0 : K) ≤ 0 := le_rfl

abbrev Positive := { x : K // 0 < x }

end Numbers

/-- Why a contract refuses its fields. -/
inductive ValidationError where
  | securityId
  | label
  | entityToken
  | probability
  | weight
  | duplicatePosition
  | grossExposure
  deriving DecidableEq, Repr

/-! ### Committee output -/

section Committee
variable (K : Type*) [Field K] [LinearOrder K]

structure AgentWeight where
  agent : AgentName
  weight : NonNegative K
  deriving DecidableEq

/-- Pooled logit for one horizon. `weights` are voting agents only. -/
structure HorizonPool where
  horizon : Horizon
  logit : K
  lambdaT : Probability K
  dispersion : NonNegative K
  weights : List (AgentWeight K)
  weights_nonempty : weights ≠ []
  weights_unique : (weights.map (·.agent)).Nodup
  weights_voting : ∀ w ∈ weights, w.agent ∈ votingAgents

/-- Committee pooling output for one entity, one pool per horizon. -/
structure PooledForecast where
  entityToken : EntityToken
  pools : List (HorizonPool K)
  pools_nonempty : pools ≠ []

/-- Walk-forward stacker fit for one horizon. -/
structure CalibrationFit where
  horizon : Horizon
  alpha : K
  beta : K
  active : Bool
  independentPeriods : Nat
  observations : Nat
  baseRate : Option (Probability K)

variable {K}

/-- `PooledForecast.pool`: the first pool of the horizon; `none` is its `KeyError`. -/
def PooledForecast.pool (self : PooledForecast K) (horizon : Horizon) : Option (HorizonPool K) :=
  self.pools.find? fun p => p.horizon = horizon

end Committee

/-! ### The proposed book -/

section Book
variable (K : Type*) [Field K] [LinearOrder K]

structure ProposedPosition where
  securityId : SecurityId
  entityToken : EntityToken
  sector : Label
  pooledP : Probability K
  targetWeight : Weight K
  deriving DecidableEq

variable {K}

/-- Validation of a position's fields. -/
def ProposedPosition.make (securityId : Int) (entityToken : EntityToken) (sector : String) (pooledP targetWeight : K) :
    Except ValidationError (ProposedPosition K) :=
  if hid : 1 ≤ securityId then
    if hsector : 1 ≤ sector.length ∧ sector.length ≤ 128 then
      if hp : 0 ≤ pooledP ∧ pooledP ≤ 1 then
        if hw : 0 ≤ targetWeight ∧ targetWeight ≤ maxPositionCap K then
          .ok ⟨⟨securityId, hid⟩, entityToken, ⟨sector, hsector⟩, ⟨pooledP, hp⟩, ⟨targetWeight, hw⟩⟩
        else .error .weight
      else .error .probability
    else .error .label
  else .error .securityId

/-- `gross_exposure` of a list of positions. -/
def grossExposure (positions : List (ProposedPosition K)) : K := (positions.map (·.targetWeight.val)).sum

variable (K)

/-- The book proposed to the CIO. -/
structure ProposedBook where
  runId : UUID
  asOf : AwareDatetime
  positions : List (ProposedPosition K)
  ids_unique : (positions.map (·.securityId)).Nodup
  tokens_unique : (positions.map (·.entityToken)).Nodup
  gross_le : grossExposure positions ≤ 1 + 1e-9
  deriving DecidableEq

variable {K}

/-- Validation of a book's positions. -/
def ProposedBook.make (runId : UUID) (asOf : AwareDatetime) (positions : List (ProposedPosition K)) :
    Except ValidationError (ProposedBook K) :=
  if hids : (positions.map (·.securityId)).Nodup ∧ (positions.map (·.entityToken)).Nodup then
    if hgross : grossExposure positions ≤ 1 + 1e-9 then
      .ok ⟨runId, asOf, positions, hids.1, hids.2, hgross⟩
    else .error .grossExposure
  else .error .duplicatePosition

/-- Cash is the residual of the book. -/
def ProposedBook.cashWeight (self : ProposedBook K) : K := max 0 (1 - grossExposure self.positions)

end Book

end AsymmetricCommittee
