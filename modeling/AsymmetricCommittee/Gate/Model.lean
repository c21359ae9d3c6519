import AsymmetricCommittee.Contracts.Records
import AsymmetricCommittee.Features.Renderer
import AsymmetricCommittee.Lib.Grouping
import AsymmetricCommittee.Lib.Ranking
import AsymmetricCommittee.Risk.Sizing

/-! The walk-forward logistic quality gate (`gate/model.py`), in exact arithmetic: labels by forward returns, the join of
    features and labels, the fit and the decisions. -/

namespace AsymmetricCommittee
namespace Gate
variable {K : Type} [Field K] [LinearOrder K]

/-- `GATE_MODEL_VERSION`. -/
def gateModelVersion : Label := ⟨"logistic_v1", by decide⟩

/-- `_number`: a truth value or a finite number. -/
def number (fl : PyFloat K) : Option (FeatureValue K) → Option K
  | some (.bool b) => some (if b then 1 else 0)
  | some (.number x) => if fl.isFinite x then some x else none
  | some .other | none => none

/-- `statistics.fmean`. -/
def fmean (values : List K) : K := values.sum / values.length

/-! ### Labels -/

structure GateLabel where
  securityId : Int
  featureTime : AwareDatetime
  labelEnd : AwareDatetime
  isTopTercile : Bool
  deriving DecidableEq

structure TrainingExample (K : Type) where
  securityId : Int
  featureTime : AwareDatetime
  labelEnd : AwareDatetime
  values : Dict String (FeatureValue K)
  target : Nat

/-- `KeyError`: a security with a return has no sector. -/
inductive LabelError where
  | noSector (securityId : Int)
  deriving DecidableEq, Repr

/-- The return of one security over the horizon, and when the horizon ends. -/
def forwardReturn (horizon : Nat) (featureTime : AwareDatetime) (rawBars : List (PriceBar K)) : Option (K × AwareDatetime) :=
  let bars := Grouping.sortOn (fun bar : PriceBar K => bar.eventTime.instant) rawBars
  let starts := (bars.zipIdx.filter fun x => decide (x.1.eventTime.instant ≤ featureTime.instant)).map Prod.snd
  match starts.getLast? with
  | none => none
  | some start =>
    match bars[start]?, bars[start + horizon]? with
    | some first, some last =>
      if 0 < first.close.val then some (last.close.val / first.close.val - 1, last.eventTime) else none
    | _, _ => none

/-- The distance of each return from the mean of its sector. -/
def relativeReturns (returns : Dict Int (K × AwareDatetime)) (sectors : Dict Int String) : Except LabelError (Dict Int K) :=
  match returns.keys.find? fun sid => (sectors.get? sid).isNone with
  | some sid => .error (.noSector sid)
  | none => .ok (returns.map fun sid value =>
      let peers := returns.entries.filter fun e => decide (sectors.get? e.1 = sectors.get? sid)
      |value.1 - fmean (peers.map fun e => e.2.1)|)

/-- The labels at one feature time: the top third by relative return, the lower id first among equal ones. -/
def labelsAt (prices : Dict Int (List (PriceBar K))) (sectors : Dict Int String) (horizon : Nat) (featureTime : AwareDatetime) :
    Except LabelError (List GateLabel) := do
  let returns := prices.filterMap fun _ bars => forwardReturn horizon featureTime bars
  let relative ← relativeReturns returns sectors
  let ranked := (relative.sort fun a b => decide (Ranked a b)).keys
  let topCount := (ranked.length + 2) / 3
  let top := ranked.take topCount
  return (returns.sort fun a b => decide (a.1 ≤ b.1)).entries.map fun e => ⟨e.1, featureTime, e.2.2, decide (e.1 ∈ top)⟩

/-- `build_labels`. -/
def buildLabels (featureTimes : List AwareDatetime) (prices : Dict Int (List (PriceBar K))) (sectors : Dict Int String)
    (horizon : Nat) : Except LabelError (List GateLabel) :=
  (featureTimes.mapM (labelsAt prices sectors horizon)).map List.flatten

/-- The features by security and time; a later row replaces an earlier one. -/
def byKey (features : List (FeatureRow K)) : Dict (Int × Int) (FeatureRow K) :=
  features.foldl (fun d row => d.set (row.securityId.val, row.eventTime.instant) row) Dict.empty

/-- `eligible_training_set`: the labels that are over before `asOf`, joined to their features. -/
def eligibleTrainingSet (features : List (FeatureRow K)) (labels : List GateLabel) (asOf : AwareDatetime) :
    List (TrainingExample K) :=
  labels.filterMap fun label =>
    if label.labelEnd.instant < asOf.instant then
      ((byKey features).get? (label.securityId, label.featureTime.instant)).map fun row =>
        ⟨label.securityId, label.featureTime, label.labelEnd, row.values, if label.isTopTercile then 1 else 0⟩
    else none

/-! ### The fit -/

/-- What the fit takes from `math` and `statistics`. -/
structure GateFns (K : Type) where
  float : PyFloat K
  exp : K → K
  log : K → K

/-- `_sigmoid`. -/
def sigmoid (fns : GateFns K) (value : K) : K := 1 / (1 + fns.exp (-(max (-35) (min 35 value))))

structure LogisticGate (K : Type) where
  names : List String
  means : List K
  scales : List K
  coefficients : List K
  intercept : K

/-- `LogisticGate.score`. -/
def LogisticGate.score (fns : GateFns K) (self : LogisticGate K) (values : Dict String (FeatureValue K)) : K :=
  let terms := (self.names.zip (self.means.zip (self.scales.zip self.coefficients))).map fun (name, mean, scale, coefficient) =>
    coefficient * ((number fns.float (values.get? name)).getD mean - mean) / scale
  sigmoid fns (self.intercept + terms.sum)

/-- One feature over the examples: its mean, its scale and a value for every example. -/
structure Column (K : Type) where
  name : String
  mean : K
  scale : K
  values : List K

/-- The names of the features that some example has a number for. -/
def featureNames (fl : PyFloat K) (examples : List (TrainingExample K)) : List String :=
  let names := examples.flatMap fun e => (e.values.entries.filter fun x => (number fl (some x.2)).isSome).map Prod.fst
  names.dedup.mergeSort fun a b => decide (a ≤ b)

/-- A missing value is the mean; a scale of zero is one. -/
def column (fl : PyFloat K) (examples : List (TrainingExample K)) (name : String) : Column K :=
  let observed := examples.filterMap fun e => number fl (e.values.get? name)
  let mean := if observed = [] then 0 else fmean observed
  let scale := if 1 < observed.length then fl.pstdev observed else 1
  ⟨name, mean, if scale = 0 then 1 else scale, examples.map fun e => (number fl (e.values.get? name)).getD mean⟩

/-- The value of an example in a column, standardized and weighted. -/
def term (c : Column K) (weight : K) (row : Nat) : K := weight * (c.values.getD row 0 - c.mean) / c.scale

/-- One iteration of the descent on the weights and the intercept. -/
def descend (fns : GateFns K) (learningRate l2 : K) (columns : List (Column K)) (examples : List (TrainingExample K))
    (model : List K × K) : List K × K :=
  let errors := examples.zipIdx.map fun (e, row) =>
    sigmoid fns (model.2 + ((model.1.zip columns).map fun (w, c) => term c w row).sum) - (e.target : K)
  let gradient := fun (c : Column K) (w : K) => fmean (errors.zipIdx.map fun (error, row) => term c error row) + l2 * w
  ((model.1.zip columns).map fun (w, c) => w - learningRate * gradient c w, model.2 - learningRate * fmean errors)

/-- `fit_logistic`. -/
def fitLogistic (fns : GateFns K) (examples : List (TrainingExample K)) (iterations : Nat) (learningRate l2 : K) : LogisticGate K :=
  let columns := (featureNames fns.float examples).map (column fns.float examples)
  let fitted := fun (weights : List K) (intercept : K) =>
    (⟨columns.map (·.name), columns.map (·.mean), columns.map (·.scale), weights, intercept⟩ : LogisticGate K)
  if examples.isEmpty then fitted (columns.map fun _ => 0) 0
  else
    let rate := min (max ((examples.map fun e => (e.target : K)).sum / examples.length) 1e-6) (1 - 1e-6)
    let start := (columns.map fun _ => (0 : K), fns.log (rate / (1 - rate)))
    let model := (descend fns learningRate l2 columns examples)^[iterations] start
    fitted model.1 model.2

/-! ### Decisions -/

/-- The coefficients as a decision shows them. -/
def components (model : LogisticGate K) : Except ValidationError (List (Label × K)) :=
  (model.names.zip model.coefficients).mapM fun x =>
    if h : 1 ≤ x.1.length ∧ x.1.length ≤ 128 then .ok (⟨x.1, h⟩, x.2) else .error .label

/-- `decide`: the top rows by score pass, the lower id first among equal ones. -/
def decideRows (fns : GateFns K) (model : LogisticGate K) (rows : List (FeatureRow K)) (runId : UUID) (asOf : AwareDatetime)
    (topK : Nat) : Except ValidationError (List (GateDecision K)) :=
  let scores := rows.foldl (fun d row => d.set row.securityId.val (model.score fns row.values)) (Dict.empty : Dict Int K)
  let passed := (scores.sort fun a b => decide (Ranked a b)).keys.take topK
  rows.mapM fun row => do
    let score := (scores.get? row.securityId.val).getD 0
    if h : 0 ≤ score ∧ score ≤ 1 then
      let parts ← components model
      return ⟨runId, row.securityId, asOf, row.featureSetVersion, gateModelVersion, ⟨score, h⟩,
        decide (row.securityId.val ∈ passed), parts⟩
    else throw .probability

/-- `recall`: the share of the top securities that passed. -/
def «recall» (decisions : List (GateDecision K)) (labels : List GateLabel) : Option K :=
  let positives := ((labels.filter fun x => x.isTopTercile).map fun x => x.securityId).dedup
  if positives = [] then none
  else
    let passed := (decisions.filter fun x => x.passed).map fun x => x.securityId.val
    some ((positives.filter fun sid => decide (sid ∈ passed)).length / positives.length)

end Gate
end AsymmetricCommittee
