import AsymmetricCommittee.Contracts.Verdicts
import AsymmetricCommittee.Risk.Sizing

/-! Pooling of the voting agents' verdicts, horizon by horizon (`committee/pooling.py`), in exact arithmetic. -/

namespace AsymmetricCommittee
namespace Pooling

/-- Why verdicts are not pooled. -/
inductive PoolingError where
  | duplicateVerdicts
  | severalEntities
  | noVotingAgents
  | zeroDivision
  | keyError
  | invalid
  deriving DecidableEq, Repr

/-- `math.log` besides `math.sqrt` and `math.exp`. -/
structure PoolFns (K : Type) extends Sizing.MathFns K where
  log : K → K

/-- Resolved forecasts of one agent at one horizon. -/
structure AgentHistory (K : Type) where
  forecasts : List K
  outcomes : List Int
  independentPeriods : Nat
  same_length : forecasts.length = outcomes.length

abbrev History (K : Type) := AgentName → Horizon → Option (AgentHistory K)

variable {K : Type} [Field K] [LinearOrder K] (fns : PoolFns K)

/-- `_logit`, of the clipped probability. -/
def logit (p : K) (clip : K × K) : K :=
  let q := min (max p clip.1) clip.2
  fns.log (q / (1 - q))

/-- `_probability`. -/
def probability (v : AgentVerdict K) : Horizon → K
  | .d5 => v.pOutperform5.val
  | .d21 => v.pOutperform21.val
  | .d63 => v.pOutperform63.val

/-- `_brier`. -/
def brier (forecasts : List K) (outcomes : List Int) (omega : K) : Except PoolingError K :=
  if outcomes = [] then .error .zeroDivision
  else .ok (((forecasts.zip outcomes).map fun x => omega * (x.1 - x.2) ^ 2).sum / outcomes.length)

/-- `_lambda_t`: 0 until every agent has enough independent periods. -/
def lambdaT (agents : List AgentName) (horizon : Horizon) (history : Option (History K)) (cfg : CommitteeConfig K) : K :=
  match history with
  | none => 0
  | some history =>
    match agents.mapM fun a => history a horizon with
    | none => 0
    | some histories =>
      match (histories.map (·.independentPeriods)).min? with
      | none => 0
      | some t => if t ≤ cfg.minPeriods then 0 else 1 - fns.exp (-(t - cfg.minPeriods) / cfg.tau.val)

/-- `1 - bs / base` of one agent, not below 0. -/
def skillOf (horizon : Horizon) (history : History K) (baseRate omega : K) (a : AgentName) :
    Except PoolingError (AgentName × K) :=
  match history a horizon with
  | none => .error .keyError
  | some h => do
    let base ← brier (List.replicate h.outcomes.length baseRate) h.outcomes omega
    let own ← brier h.forecasts h.outcomes omega
    return (a, max 0 (if 0 < base then 1 - own / base else 0))

/-- `_skill_weights`: in proportion to the skill, equal if there is none. -/
def skillWeights (agents : List AgentName) (horizon : Horizon) (history : History K) (baseRate omega : K) :
    Except PoolingError (List (AgentName × K)) := do
  let skill ← agents.mapM (skillOf horizon history baseRate omega)
  let total := (skill.map Prod.snd).sum
  if total ≤ 0 then return agents.map fun a => (a, 1 / agents.length)
  else return skill.map fun s => (s.1, s.2 / total)

/-- The agents that are not pinned. -/
def freeAgents (raw : List (AgentName × K)) (pinned : List AgentName) : List (AgentName × K) :=
  raw.filter fun x => x.1 ∉ pinned

/-- The weight of a free agent when what the pinned leave is shared. -/
def rescaled (raw : List (AgentName × K)) (floor : K) (pinned : List AgentName) (w : K) : K :=
  w * (1 - floor * pinned.length) / ((freeAgents raw pinned).map Prod.snd).sum

/-- The free agents that fall below the floor. -/
def newlyPinned (raw : List (AgentName × K)) (floor : K) (pinned : List AgentName) : List AgentName :=
  (((freeAgents raw pinned).filter fun x => rescaled raw floor pinned x.2 < floor).map Prod.fst).dedup

/-- An agent that is newly pinned is not free any more. -/
theorem freeAgents_newlyPinned_lt {raw : List (AgentName × K)} {floor : K} {pinned : List AgentName}
    (h : newlyPinned raw floor pinned ≠ []) :
    (freeAgents raw (pinned ++ newlyPinned raw floor pinned)).length < (freeAgents raw pinned).length := by
  obtain ⟨a, ha⟩ := List.exists_mem_of_ne_nil _ h
  obtain ⟨x, hx, rfl⟩ := List.mem_map.mp (List.mem_dedup.mp ha)
  have hrest : freeAgents raw (pinned ++ newlyPinned raw floor pinned) =
      (freeAgents raw pinned).filter fun x => x.1 ∉ newlyPinned raw floor pinned := by
    rw [freeAgents, freeAgents, List.filter_filter]
    refine List.filter_congr fun y _ => ?_
    simp [Bool.and_comm]
  rw [hrest]
  exact List.length_filter_lt_length_iff_exists.mpr ⟨x, (List.mem_filter.mp hx).1, by simp [ha]⟩

/-- What `_apply_floor` does from a set of pinned agents on. -/
def applyFloorFrom (raw : List (AgentName × K)) (floor : K) (pinned : List AgentName) : List (AgentName × K) :=
  if freeAgents raw pinned = [] ∨ ((freeAgents raw pinned).map Prod.snd).sum ≤ 0 then raw.map fun x => (x.1, 1 / raw.length)
  else if _h : newlyPinned raw floor pinned = [] then
    raw.map fun x => (x.1, if x.1 ∈ pinned then floor else rescaled raw floor pinned x.2)
  else applyFloorFrom raw floor (pinned ++ newlyPinned raw floor pinned)
termination_by (freeAgents raw pinned).length
decreasing_by exact freeAgents_newlyPinned_lt _h

/-- `_apply_floor`: floored weights are pinned and the others rescaled, until stable. -/
def applyFloor (raw : List (AgentName × K)) (floor : K) : List (AgentName × K) :=
  applyFloorFrom raw floor ((raw.filter fun x => x.2 < floor).map Prod.fst)

/-- `pstdev`, 0 of a single value. -/
def dispersion (values : List K) : K :=
  if values.length ≤ 1 then 0
  else
    let mean := values.sum / values.length
    fns.sqrt ((values.map fun x => (x - mean) ^ 2).sum / values.length)

/-- The contract of a pool: its fields and its agents are checked. -/
def makePool (horizon : Horizon) (logit lambdaT dispersion : K) (weights : List (AgentName × K)) :
    Except PoolingError (HorizonPool K) := do
  let weights : List (AgentWeight K) ← weights.mapM fun x =>
    if h : 0 ≤ x.2 then .ok ⟨x.1, ⟨x.2, h⟩⟩ else .error .invalid
  if hlambda : 0 ≤ lambdaT ∧ lambdaT ≤ 1 then
    if hdispersion : 0 ≤ dispersion then
      if hweights : weights ≠ [] ∧ (weights.map (·.agent)).Nodup ∧ ∀ w ∈ weights, w.agent ∈ votingAgents then
        return ⟨horizon, logit, ⟨lambdaT, hlambda⟩, ⟨dispersion, hdispersion⟩, weights, hweights.1, hweights.2.1, hweights.2.2⟩
      else throw .invalid
    else throw .invalid
  else throw .invalid

/-- The pool of one horizon. -/
def poolAt (voters : List (AgentVerdict K)) (baseRates : Horizon → Option K) (config : CommitteeConfig K)
    (history : Option (History K)) (horizon : Horizon) : Except PoolingError (HorizonPool K) := do
  let agents := voters.map (·.agent)
  let z := voters.map fun v => (v.agent, logit fns (probability v horizon) config.logitClip)
  let lam := lambdaT fns agents horizon history config
  let equal : K := 1 / agents.length
  let skill ← skills agents lam equal
  let raw := skill.map fun s => (s.1, (1 - lam) * equal + lam * s.2)
  let w := applyFloor raw config.weightFloor.val
  makePool horizon ((w.map fun x => x.2 * ((z.lookup x.1).getD 0)).sum) lam (dispersion fns (z.map Prod.snd)) w
where
  skills (agents : List AgentName) (lam equal : K) : Except PoolingError (List (AgentName × K)) :=
    match history with
    | none => .ok (agents.map fun a => (a, equal))
    | some history =>
      if 0 < lam then
        match baseRates horizon with
        | none => .error .keyError
        | some baseRate => skillWeights agents horizon history baseRate (config.overlapWeights horizon).val
      else .ok (agents.map fun a => (a, equal))

/-- The verdicts that vote, by agent. -/
def voters (verdicts : List (AgentVerdict K)) : List (AgentVerdict K) :=
  (verdicts.filter fun v => v.valid && v.dataSufficiency != .insufficient).insertionSort
    fun a b => a.agent.enumValue ≤ b.agent.enumValue

/-- `pool_agent_verdicts`: one entity's verdicts pooled at every horizon. -/
def poolAgentVerdicts (verdicts : List (AgentVerdict K)) (baseRates : Horizon → Option K) (config : CommitteeConfig K)
    (history : Option (History K)) : Except PoolingError (PooledForecast K) :=
  if ¬(verdicts.map (·.agent)).Nodup then .error .duplicateVerdicts
  else if ∃ v ∈ verdicts, ∃ v' ∈ verdicts, v.entityToken ≠ v'.entityToken then .error .severalEntities
  else
    match voters verdicts with
    | [] => .error .noVotingAgents
    | v :: rest => do
      let pools ← [Horizon.d5, .d21, .d63].mapM (poolAt fns (v :: rest) baseRates config history)
      if h : pools ≠ [] then return ⟨v.entityToken, pools, h⟩ else throw .invalid

end Pooling
end AsymmetricCommittee
