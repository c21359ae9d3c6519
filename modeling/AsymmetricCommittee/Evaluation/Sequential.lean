import Mathlib.Algebra.Order.Floor.Ring
import Mathlib.Algebra.Order.Field.Basic
import Mathlib.Data.Nat.Find
import Mathlib.Data.Rat.Floor

/-! The anytime-valid sequential test (`evaluation/sequential.py`) in exact arithmetic. The numbers are
    those of any ordered field with a floor, so that the test runs over `ℚ` and is reasoned about
    over `ℝ`; `math.sqrt` is the parameter `sqrt`. -/

namespace AsymmetricCommittee
namespace Sequential

/-- A float: a number, an infinity or NaN. -/
inductive Extended (K : Type*) where
  | finite (x : K)
  | posInf
  | negInf
  | nan
  deriving DecidableEq, Repr

/-- Why a call raises. `closed` is `SequentialTestClosed`, the others are `ValueError`s. -/
inductive SequentialError where
  | nonFiniteExcess
  | betOutOfRange
  | criticalValueOutOfRange
  | bandwidthOutOfRange
  | closed (week : Nat)
  deriving DecidableEq, Repr

inductive SequentialStatus where
  | running
  | pass
  | fail
  | inconclusive
  deriving DecidableEq, Repr

inductive TerminalReason where
  | bothEProcesses
  | mirroredEProcess
  | conflictingEvidence
  | noCrossing
  deriving DecidableEq, Repr

/-- `MIN_WEEK`: no decision is taken before this observed week. -/
def minWeek : Nat := 26

/-- `MAX_WEEK`: the window closes after this observed week. -/
def maxWeek : Nat := 104

section Field
variable {K : Type*} [Field K] [LinearOrder K]

def alpha : K := 0.05

/-- `E_THRESHOLD`, `1 / ALPHA`. -/
def eThreshold : K := 20

/-- `C_X`: the clip on a weekly net excess. -/
def cX : K := 0.05

/-- `LAMBDA_CAP`: the aGRAPA truncation. -/
def lambdaCap : K := 0.5

/-- `TOST_MARGIN`: the arithmetic weekly-mean margin. -/
def tostMargin : K := 0.02 / 52

/-- `KV_TABLE_I_BARTLETT_95`: critical values at `b = 0.02, 0.04, ..., 1.00`. -/
def kvTable : List K := [
  1.690, 1.731, 1.772, 1.813, 1.861, 1.902, 1.944, 1.988, 2.030, 2.081,
  2.124, 2.179, 2.222, 2.274, 2.324, 2.367, 2.412, 2.459, 2.505, 2.556,
  2.601, 2.651, 2.696, 2.739, 2.781, 2.828, 2.872, 2.913, 2.956, 3.007,
  3.048, 3.082, 3.124, 3.162, 3.198, 3.245, 3.291, 3.330, 3.367, 3.408,
  3.444, 3.494, 3.537, 3.579, 3.616, 3.654, 3.692, 3.727, 3.764, 3.764]

/-- `_KV_STEP`. -/
def kvStep : K := 0.02

/-- The value of a float that `math.isfinite` accepts. -/
def finiteExcess : Extended K → Except SequentialError K
  | .finite x => .ok x
  | _ => .error .nonFiniteExcess

/-- Weekly net excess to the betting variable `clip(x, ±c) / c`. -/
def clippedY (x : Extended K) (c : K) : Except SequentialError K := do
  let x ← finiteExcess x
  return max (-c) (min c x) / c

/-- One e-process. `mu` and `var` are the running mean and variance. -/
structure BettingState (K : Type*) where
  t : Nat
  wealth : K
  sumY : K
  sumSqDev : K
  mu : K
  var : K
  deriving DecidableEq, Repr

/-- The state before the first week (the dataclass's defaults). -/
def BettingState.start : BettingState K := ⟨0, 1, 0, 0, 0, 1⟩

/-- The aGRAPA bet, a function of the past only. -/
def nextLambda (state : BettingState K) : K :=
  max 0 (min lambdaCap (state.mu / (state.var + state.mu * state.mu)))

/-- What `bet` books for a `y` in range: the wealth at the bet fixed by the past, then the moments. -/
def BettingState.book (state : BettingState K) (y : K) : BettingState K :=
  let wealth := state.wealth * (1 + nextLambda state * y)
  let t := state.t + 1
  let sumY := state.sumY + y
  let mu := sumY / ((t : K) + 1)
  let sumSqDev := state.sumSqDev + (y - mu) ^ 2
  let var := (1 + sumSqDev) / ((t : K) + 1)
  ⟨t, wealth, sumY, sumSqDev, mu, var⟩

def bet (state : BettingState K) (y : K) : Except SequentialError (BettingState K) :=
  if -1 ≤ y ∧ y ≤ 1 then .ok (state.book y) else .error .betOutOfRange

/-! ### The TOST diagnostic -/

/-- `⌊4 (n/100)^(2/9)⌋`: the greatest `L` with `L^9 ≤ 4^9 (n/100)^2`. -/
def hacLag (n : Nat) : Nat :=
  Nat.findGreatest (fun L => L ^ 9 * 100 ^ 2 ≤ 4 ^ 9 * n ^ 2) (4 * (n + 1))

/-- Fixed-b critical value, linear interpolation of the table. -/
def kvBartlettCv95 [FloorRing K] (b : K) : Except SequentialError K :=
  if ¬(kvStep - 1e-12 ≤ b ∧ b ≤ 1 + 1e-12) then .error .criticalValueOutOfRange
  else
    let last : K := (kvTable (K := K)).length - 1
    let pos := min (max (b / kvStep - 1) 0) last
    let i := min ⌊pos⌋.toNat ((kvTable (K := K)).length - 2)
    let frac := pos - i
    let lo := kvTable.getD i 0
    let hi := kvTable.getD (i + 1) 0
    .ok (lo + frac * (hi - lo))

/-- Long-run variance with Bartlett weights `1 - j / bandwidth`. -/
def bartlettLrv (x : List K) (bandwidth : Nat) : Except SequentialError K :=
  let n := x.length
  if bandwidth < 1 ∨ bandwidth > n then .error .bandwidthOutOfRange
  else
    let m := x.sum / n
    let d := x.map fun v => v - m
    let gamma := fun (j : Nat) => (List.zipWith (· * ·) (d.drop j) d).sum / (n : K)
    .ok ((List.range' 1 (bandwidth - 1)).foldl
      (fun (lrv : K) (j : Nat) => lrv + 2 * (1 - (j : K) / bandwidth) * gamma j) ((d.map fun v => v * v).sum / n))

/-- The diagnostic's record. `tLower` and `tUpper` are infinite on a constant series. -/
structure TostResult (K : Type*) where
  n : Nat
  bandwidth : Nat
  b : K
  mean : K
  se : K
  tLower : Extended K
  tUpper : Extended K
  criticalValue : K
  equivalent : Bool
  deriving DecidableEq, Repr

/-- `x > c` for a float `x` and a number `c`. -/
def Extended.gt : Extended K → K → Bool
  | .finite x, c => c < x
  | .posInf, _ => true
  | _, _ => false

/-- `x < c` for a float `x` and a number `c`. -/
def Extended.lt : Extended K → K → Bool
  | .finite x, c => x < c
  | .negInf, _ => true
  | _, _ => false

/-- Two one-sided tests of `|mean| < margin`, fixed-b Bartlett HAC. -/
def tost [FloorRing K] (sqrt : K → K) (x : List K) (margin : K) :
    Except SequentialError (TostResult K) := do
  let n := x.length
  let bandwidth := hacLag n
  let b := (bandwidth : K) / n
  let cv ← kvBartlettCv95 b
  let mean := x.sum / n
  let lrv ← bartlettLrv x bandwidth
  let se := sqrt (lrv / n)
  let tLo := if se ≤ 0 then (if mean + margin > 0 then .posInf else .negInf)
    else .finite ((mean + margin) / se)
  let tHi := if se ≤ 0 then (if mean - margin < 0 then .negInf else .posInf)
    else .finite ((mean - margin) / se)
  return ⟨n, bandwidth, b, mean, se, tLo, tHi, cv, tLo.gt cv && tHi.lt (-cv)⟩

/-! ### The two-comparison test -/

structure SequentialTest (K : Type*) where
  week : Nat
  spy : BettingState K
  quant : BettingState K
  mirror : BettingState K
  quantExcess : List K
  status : SequentialStatus
  terminalWeek : Option Nat
  terminalReason : Option TerminalReason
  tostResult : Option (TostResult K)
  deriving DecidableEq, Repr

/-- `SequentialTest()`. -/
def SequentialTest.start : SequentialTest K :=
  ⟨0, .start, .start, .start, [], .running, none, none, none⟩

def SequentialTest.passWeek (self : SequentialTest K) : Option Nat :=
  if self.status = .pass then self.terminalWeek else none

/-- `observe`: one observed week's net excess versus each comparator. -/
def SequentialTest.observe [FloorRing K] (sqrt : K → K) (self : SequentialTest K)
    (excessVsSpy excessVsQuant : Extended K) : Except SequentialError (SequentialTest K) :=
  if self.status ≠ .running then
    if self.terminalReason = some .noCrossing then .error (.closed self.week)
    else .ok self
  else do
    let ySpy ← clippedY excessVsSpy cX
    let yQuant ← clippedY excessVsQuant cX
    let week := self.week + 1
    let spy ← bet self.spy ySpy
    let quant ← bet self.quant yQuant
    let mirror ← bet self.mirror (-yQuant)
    let raw := self.quantExcess ++ [← finiteExcess excessVsQuant]
    let state := fun (status : SequentialStatus) reason diagnostic =>
      let terminal := if status = .running then none else some week
      SequentialTest.mk week spy quant mirror raw status terminal reason diagnostic
    let passed := spy.wealth ≥ eThreshold ∧ quant.wealth ≥ eThreshold
    let failed := mirror.wealth ≥ eThreshold
    if week ≥ minWeek ∧ passed ∧ failed then
      return state .inconclusive (some .conflictingEvidence) none
    else if week ≥ minWeek ∧ passed then
      return state .pass (some .bothEProcesses) none
    else if week ≥ minWeek ∧ failed then
      return state .fail (some .mirroredEProcess) none
    else if week < maxWeek then
      return state .running none none
    else
      return state .inconclusive (some .noCrossing) (some (← tost sqrt raw tostMargin))

/-- Feeding the weeks of a series one after the other from a state of the test. -/
def SequentialTest.observeAll [FloorRing K] (sqrt : K → K) (self : SequentialTest K)
    (series : List (Extended K × Extended K)) : Except SequentialError (SequentialTest K) :=
  series.foldlM (fun test x => test.observe sqrt x.1 x.2) self

end Field

end Sequential
end AsymmetricCommittee
