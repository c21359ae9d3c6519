import AsymmetricCommittee.Config.Loader
import AsymmetricCommittee.Lib.Dict
import AsymmetricCommittee.Risk.Sizing

/-! The walk-forward stacker fit, the error correlation of the agents and their effective number (`committee/stacker.py`),
    in exact arithmetic. `sigmoid` is the one of the sizing. -/

namespace AsymmetricCommittee
namespace Stacker

/-- Why a fit or a correlation is refused: a `ValueError`, or a contract that does not hold. -/
inductive StackerError where
  | noObservations
  | weights
  | tooFewAgents
  | instances
  | constantErrors (agent : String)
  | undefinedNEff
  | invalid
  deriving DecidableEq, Repr

/-- `math.log`, `math.log1p` and `math.hypot` besides `math.sqrt` and `math.exp`. -/
structure StackerFns (K : Type) extends Sizing.MathFns K where
  log : K → K
  log1p : K → K
  hypot : K → K → K

/-- The stacker's part of `pipeline.yaml`. -/
structure StackerConfig (K : Type) [Field K] [LinearOrder K] where
  gammaAlpha : NonNegative K
  gammaBeta : NonNegative K
  activationPeriods : Nat
  activationPeriods_pos : 1 ≤ activationPeriods

/-- One resolved instance. -/
structure Observation (K : Type) where
  logit : K
  outcome : Int
  weight : K

variable {K : Type} [Field K] [LinearOrder K]

/-! ### The fit -/

section Fit
variable (fns : StackerFns K)

/-- `_softplus`. -/
def softplus (x : K) : K := max x 0 + fns.log1p (fns.exp (-|x|))

/-- `_objective`. -/
def objective (a b : K) (obs : List (Observation K)) (anchor gA gB : K) : K :=
  (obs.map fun o => o.weight * (softplus fns (a + b * o.logit) - o.outcome * (a + b * o.logit))).sum / obs.length +
    0.5 * gA * (a - anchor) ^ 2 + 0.5 * gB * (b - 1) ^ 2

/-- The gradient and the Hessian of an iteration. -/
structure Derivatives (K : Type) where
  ga : K
  gb : K
  haa : K
  hab : K
  hbb : K

/-- The inner loop: what an observation adds. -/
def Derivatives.add (a b : K) (m : Nat) (d : Derivatives K) (o : Observation K) : Derivatives K :=
  let p := Sizing.sigmoid fns.toMathFns (a + b * o.logit)
  let r := o.weight * (p - o.outcome) / m
  let s := o.weight * p * (1 - p) / m
  ⟨d.ga + r, d.gb + r * o.logit, d.haa + s, d.hab + s * o.logit, d.hbb + s * o.logit ^ 2⟩

def derivatives (a b : K) (obs : List (Observation K)) (anchor gA gB : K) : Derivatives K :=
  obs.foldl (Derivatives.add fns a b obs.length) ⟨gA * (a - anchor), gB * (b - 1), gA, 0, gB⟩

/-- The Newton direction, or steepest descent at a singular Hessian. -/
def direction (d : Derivatives K) : K × K :=
  let det := d.haa * d.hbb - d.hab * d.hab
  if 1e-14 < det then (-(d.hbb * d.ga - d.hab * d.gb) / det, -(d.haa * d.gb - d.hab * d.ga) / det) else (-d.ga, -d.gb)

/-- What the line search comes to; the fuel is the number of steps it may try. -/
inductive Search (K : Type) where
  | accepted (step f : K)
  | exhausted
  | outOfFuel

/-- The `while step > 1e-12` loop with its `else`. -/
def lineSearch (objectiveAt : K → K) (f slope : K) : Nat → K → Search K
  | 0, step => if 1e-12 < step then .outOfFuel else .exhausted
  | fuel + 1, step =>
    if 1e-12 < step then
      if objectiveAt step ≤ f + 1e-4 * step * slope then .accepted step (objectiveAt step)
      else lineSearch objectiveAt f slope fuel (step * 0.5)
    else .exhausted

/-- Where the solver is, with the objective there. -/
structure Iterate (K : Type) where
  a : K
  b : K
  f : K

/-- What an iteration comes to: a new point, a `break`, or a line search out of fuel. -/
inductive Turn (K : Type) where
  | next (s : Iterate K)
  | stop
  | outOfFuel

/-- The body of the loop. -/
def turn (obs : List (Observation K)) (anchor gA gB : K) (fuel : Nat) (s : Iterate K) : Turn K :=
  let d := derivatives fns s.a s.b obs anchor gA gB
  if fns.hypot d.ga d.gb < 1e-10 then .stop
  else
    let dir := direction d
    let objectiveAt := fun step => objective fns (s.a + step * dir.1) (s.b + step * dir.2) obs anchor gA gB
    match lineSearch objectiveAt s.f (d.ga * dir.1 + d.gb * dir.2) fuel 1 with
    | .accepted step f => .next ⟨s.a + step * dir.1, s.b + step * dir.2, f⟩
    | .exhausted => .stop
    | .outOfFuel => .outOfFuel

/-- `for _ in range(left)`. -/
def solveFrom (obs : List (Observation K)) (anchor gA gB : K) (fuel : Nat) : Nat → Iterate K → Option (Iterate K)
  | 0, s => some s
  | left + 1, s =>
    match turn fns obs anchor gA gB fuel s with
    | .next s => solveFrom obs anchor gA gB fuel left s
    | .stop => some s
    | .outOfFuel => none

/-- `_MAX_ITER`. -/
def maxIter : Nat := 100

def startAt (obs : List (Observation K)) (anchor gA gB : K) : Iterate K :=
  ⟨anchor, 1, objective fns anchor 1 obs anchor gA gB⟩

/-- `_solve`; `none` is a line search that is out of fuel. -/
def solve (obs : List (Observation K)) (anchor gA gB : K) (fuel : Nat) : Option (K × K) :=
  (solveFrom fns obs anchor gA gB fuel maxIter (startAt fns obs anchor gA gB)).map fun s => (s.a, s.b)

/-- The trailing base rate, clipped. -/
def baseRate (obs : List (Observation K)) (clip : K × K) : K :=
  min (max ((obs.map fun o => o.weight * (o.outcome : K)).sum / (obs.map (·.weight)).sum) clip.1) clip.2

/-- `fit_stacker`; `none` is a solver out of fuel. -/
def fitStacker (observations : List (Observation K)) (horizon : Horizon) (independentPeriods : Nat)
    (config : CommitteeConfig K) (cfg : StackerConfig K) (fuel : Nat) : Option (Except StackerError (CalibrationFit K)) :=
  if observations = [] then some (.error .noObservations)
  else if independentPeriods < cfg.activationPeriods then
    some (.ok ⟨horizon, 0, 1, false, independentPeriods, observations.length, none⟩)
  else if (observations.map (·.weight)).sum ≤ 0 then some (.error .weights)
  else
    let base := baseRate observations config.logitClip
    (solve fns observations (fns.log (base / (1 - base))) cfg.gammaAlpha.val cfg.gammaBeta.val fuel).map fun ab =>
      if h : 0 ≤ base ∧ base ≤ 1 then
        .ok ⟨horizon, ab.1, ab.2, true, independentPeriods, observations.length, some ⟨base, h⟩⟩
      else .error .invalid

end Fit

/-! ### The effective number of agents -/

section Agents
variable (sqrt : K → K)

/-- Agent error correlation and effective agent count for one horizon. -/
structure ErrorCorrelation (K : Type) [Field K] [LinearOrder K] where
  horizon : Horizon
  agents : Nat
  observations : Nat
  meanCorrelation : K
  nEff : K
  monocultureAlert : Bool
  agents_ge : 2 ≤ agents
  observations_ge : 2 ≤ observations
  meanCorrelation_range : -1 ≤ meanCorrelation ∧ meanCorrelation ≤ 1
  nEff_pos : 0 < nEff

/-- `N_EFF_ALERT`. -/
def nEffAlert : K := (2 : ℕ)

/-- The centred errors of an agent. -/
def centered (forecast : List K) (outcomes : List Int) : List K :=
  let errors := List.zipWith (fun p (y : Int) => p - (y : K)) forecast outcomes
  errors.map fun e => e - errors.sum / errors.length

/-- `sum(x * y ..)`. -/
def dot (x y : List K) : K := (List.zipWith (· * ·) x y).sum

def norm (x : List K) : K := sqrt (x.map fun c => c * c).sum

/-- A pairwise correlation before it is clipped. -/
def correlation (x y : List K) : K := dot x y / (norm sqrt x * norm sqrt y)

/-- The double loop over the pairs. -/
def pairTotal {α : Type} (f : α → α → K) : List α → K
  | [] => 0
  | a :: rest => (rest.map (f a)).sum + pairTotal f rest

/-- `rho`. -/
def meanCorrelation (vectors : List (List K)) : K :=
  pairTotal (fun x y => max (-1) (min 1 (correlation sqrt x y))) vectors / (vectors.length * (vectors.length - 1) / (2 : ℕ))

/-- `denom`. -/
def denominator (vectors : List (List K)) : K := 1 + (vectors.length - 1) * meanCorrelation sqrt vectors

/-- `forecasts[a]` of the agents in their order. -/
def forecastsOf (forecasts : Dict String (List K)) : List (String × List K) :=
  forecasts.entries.insertionSort fun a b => a.1 ≤ b.1

/-- The first agent with constant errors. -/
def constantAgent (vectors : List (String × List K)) : Option String :=
  (vectors.find? fun v => norm sqrt v.2 ≤ 1e-12).map (·.1)

/-- `compute_effective_agents`. -/
def computeEffectiveAgents (forecasts : Dict String (List K)) (outcomes : List Int) (horizon : Horizon) :
    Except StackerError (ErrorCorrelation K) :=
  let agents := forecastsOf forecasts
  let nAgents := agents.length
  let m := outcomes.length
  if hagents : nAgents < 2 then .error .tooFewAgents
  else if hm : m < 2 ∨ agents.any (fun a => a.2.length ≠ m) then .error .instances
  else
    let vectors := agents.map fun a => (a.1, centered a.2 outcomes)
    match constantAgent sqrt vectors with
    | some a => .error (.constantErrors a)
    | none =>
      let rho := meanCorrelation sqrt (vectors.map (·.2))
      let denom := denominator sqrt (vectors.map (·.2))
      if denom ≤ 0 then .error .undefinedNEff
      else
        let nEff := nAgents / denom
        if h : (-1 ≤ rho ∧ rho ≤ 1) ∧ 0 < nEff then
          .ok ⟨horizon, nAgents, m, rho, nEff, nEff < nEffAlert, not_lt.mp hagents, not_lt.mp (not_or.mp hm).1, h.1, h.2⟩
        else .error .invalid

end Agents

end Stacker
end AsymmetricCommittee
