import RlAqs.Learner.SimplexCore
import Mathlib.Algebra.Order.Group.Unbundled.Abs

/-!
The statistics of `src/statistics/analysis`: the one-pass `OnlineStats`, the recursions of
`Stats`, and the three overloads of the confidence test. `none` stands for a double that is no
number after a division by zero.
-/

namespace RlAqs

def toInt (n : Int) : Int := n.bmod (2 ^ 32)

theorem toInt_natCast {n : Nat} (bound : n < 2 ^ 31) : toInt n = n := by
  rw [toInt, Int.bmod_eq_of_le] <;> omega

theorem toInt_of_large {n : Nat} (large : 2 ^ 31 ≤ n) (bound : n < 2 ^ 32) :
    toInt n = n - 2 ^ 32 := by
  rw [toInt, Int.bmod_def]
  omega

theorem toInt_ne_zero {n : Nat} (positive : 0 < n) (bound : n < 2 ^ 32) : toInt n ≠ 0 := by
  rcases lt_or_ge n (2 ^ 31) with few | large
  · rw [toInt_natCast few]
    omega
  · rw [toInt_of_large large bound]
    omega

theorem toInt_lt (n : Int) : toInt n < 2 ^ 31 := by
  have bound := Int.bmod_lt (x := n) (m := 2 ^ 32) (by decide)
  rw [toInt]
  omega

@[simp] theorem toInt_toInt_add (n m : Int) : toInt (toInt n + m) = toInt (n + m) := by
  simp [toInt]

@[simp] theorem toInt_toInt (n : Int) : toInt (toInt n) = toInt n := by
  simp [toInt]

/-- `m_n` is a counter of 32 bits. -/
structure OnlineStats where
  n : Nat
  oldM : Option ℚ
  newM : Option ℚ
  oldS : Option ℚ
  newS : Option ℚ
  deriving DecidableEq, Repr

namespace OnlineStats

def fresh : OnlineStats := ⟨0, some 0, some 0, some 0, some 0⟩

def clear (stats : OnlineStats) : OnlineStats := { stats with n := 0 }

def push (stats : OnlineStats) (x : ℚ) : OnlineStats :=
  let n := (stats.n + 1) % 2 ^ 32
  if n = 1 then { stats with n := n, oldM := some x, oldS := some 0 }
  else
    let newM := stats.oldM.bind fun oldM => (divide (x - oldM) n).map fun step => oldM + step
    let newS := stats.oldS.bind fun oldS => stats.oldM.bind fun oldM =>
      newM.map fun newM => oldS + (x - oldM) * (x - newM)
    { n := n, oldM := newM, newM := newM, oldS := newS, newS := newS }

def pushAll (stats : OnlineStats) (values : List ℚ) : OnlineStats := values.foldl push stats

def getNumValues (stats : OnlineStats) : Int := toInt stats.n

def mean (stats : OnlineStats) : Option ℚ :=
  if 1 < stats.n then stats.newM else if stats.n = 1 then stats.oldM else some 0

def variance (stats : OnlineStats) : Option ℚ :=
  if 1 < stats.n then stats.newS.bind fun newS => divide newS (stats.n - 1 : Nat) else some 0

end OnlineStats

namespace Stats

def mean (n : Int) (xbar x : ℚ) : Option ℚ :=
  (divide (x - xbar) (toInt n)).map fun step => xbar + step

def variance (xbarOld xbarNew var x : ℚ) : ℚ := var + (x - xbarOld) * (x - xbarNew)

def next (state : Nat × ℚ × ℚ) (x : ℚ) : Option (Nat × ℚ × ℚ) :=
  (mean (state.1 + 1 : Nat) state.2.1 x).map fun xbar =>
    (state.1 + 1, xbar, variance state.2.1 xbar state.2.2 x)

end Stats

/-- The quotient of two doubles, where a zero divisor is a positive zero. -/
inductive Ratio where
  | finite (value : ℚ)
  | infinite (positive : Bool)
  | nan
  deriving DecidableEq, Repr

def ratio (numerator divisor : ℚ) : Ratio :=
  if divisor = 0 then if numerator = 0 then .nan else .infinite (0 < numerator)
  else .finite (numerator / divisor)

def Ratio.le : Ratio → Ratio → Bool
  | .nan, _ => false
  | _, .nan => false
  | .infinite positive, .infinite positive' => !positive || positive'
  | .infinite positive, .finite _ => !positive
  | .finite _, .infinite positive => positive
  | .finite left, .finite right => left ≤ right

namespace CI

/-- `quantile` is `gsl_cdf_tdist_Pinv`; neither it nor the square root is looked into. -/
structure Functions where
  quantile : ℚ → ℚ → ℚ
  sqrt : ℚ → ℚ

def isConfidentWithPrecision (functions : Functions) (mean sv : Option ℚ) (size : Int)
    (alpha error : ℚ) : Bool :=
  let size := toInt size
  if size < 2 then false
  else
    let df : ℚ := size - 1
    let nu := 1 - alpha / 2
    let relAdjError := ratio error (1 + error)
    let t := functions.quantile nu df
    match sv, mean with
    | none, _ => true
    | some _, none => false
    | some sv, some mean =>
        let ciHalfLength := t * functions.sqrt (sv / size)
        (ratio ciHalfLength |mean|).le relAdjError

end CI

end RlAqs
