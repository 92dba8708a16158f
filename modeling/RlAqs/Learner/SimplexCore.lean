import Mathlib.Algebra.Order.Ring.Rat
import Mathlib.Data.List.Basic

/-!
`Simplex::projectionDuchi` with random pivots, and the vector operations its callers use.
Every division is checked: `none` stands for a zero divisor.
-/

namespace RlAqs

def divide (numerator divisor : ℚ) : Option ℚ :=
  if divisor = 0 then none else some (numerator / divisor)

namespace Simplex

/-- A counter of 16 bits runs forever when the vector has 65536 elements or more. -/
def indices (count : Nat) : Option (List Nat) :=
  if count < 65536 then some (List.range count) else none

/-- The loop over `U`. It compares indices with the pivot, not the elements they stand for. -/
def pivotLoop (vec : List ℚ) (z : ℚ) :
    Nat → (Nat → Nat) → List Nat → ℚ → ℚ → Option (ℚ × ℚ)
  | _, _, [], s, rho => some (s, rho)
  | 0, _, _ :: _, _, _ => none
  | fuel + 1, draws, first :: rest, s, rho =>
      let u := first :: rest
      let k := draws 0 % u.length
      let pivot := u.getD k 0
      let g := u.filter fun index => pivot ≤ index
      let l := u.filter fun index => index < pivot
      let deltaRho : ℚ := g.length
      let deltaS := (g.map fun index => vec.getD index 0).sum
      if (s + deltaS) - (rho + deltaRho) * vec.getD pivot 0 < z then
        pivotLoop vec z fuel (fun round => draws (round + 1)) l (s + deltaS) (rho + deltaRho)
      else pivotLoop vec z fuel (fun round => draws (round + 1)) (u.eraseIdx k) s rho

/-- `draws` are the values `gsl_rng_uniform_int` reduces to an index of `U`. -/
def projectionDuchi (vec : List ℚ) (z b : ℚ) (draws : Nat → Nat) : Option (List ℚ) :=
  (indices vec.length).bind fun u =>
    (pivotLoop vec z vec.length draws u 0 0).bind fun state =>
      (divide (state.1 - z) state.2).map fun theta => vec.map fun x => max (x - theta) b

end Simplex

namespace Vector

def mult (vec : List ℚ) (scalar : ℚ) : List ℚ := vec.map (· * scalar)

def scale (vec : List ℚ) (min max : ℚ) : List ℚ := vec.map fun x => min + (max - min) * x

end Vector

end RlAqs
