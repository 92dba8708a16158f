import RlAqs.Sampling.LatinCore

/-!
The plain `LHS::sample`: a shuffled permutation and a uniform draw for every entry, column by
column.
-/

namespace RlAqs

inductive SamplingFault where
  | dimDontMatch
  | sampleSizeTooSmall
  /-- GSL stops the program. -/
  | gslError
  /-- A loop goes on forever. -/
  | endless
  /-- `uniqueInts` has not returned with the fuel of a call, or a loop with its own. -/
  | unreturned
  | unfinished
  deriving DecidableEq, Repr

def GslMatrix.set (matrix : GslMatrix) (row column : Nat) (value : ℚ) : GslMatrix :=
  { matrix with get := fun i j =>
      if i = row ∧ j = column then value else matrix.get i j }

namespace LHS

open GslMatrix

/-- What a sample takes from the generator: `gsl_rng_uniform` for every entry and
`gsl_ran_shuffle` for every column. -/
structure SampleDraws where
  uniform : Nat → Nat → ℚ
  uniform_bounds : ∀ i j, 0 ≤ uniform i j ∧ uniform i j < 1
  shuffle : Nat → List Nat → List Nat
  shuffle_perm : ∀ j data, (shuffle j data).Perm data

def entry (draws : SampleDraws) (pMin pMax : GslVector) (pSize : Nat) (data : List Nat)
    (i j : Nat) : ℚ :=
  let temp := (data.getD i 0 + 1 - draws.uniform i j) / pSize
  pMin.get j + temp * (pMax.get j - pMin.get j)

def fillColumn (draws : SampleDraws) (pMin pMax : GslVector) (pSize : Nat) (data : List Nat)
    (mat : GslMatrix) (j : Nat) : Option GslMatrix :=
  (Simplex.indices pSize).map fun rows =>
    rows.foldl (fun mat i => mat.set i j (entry draws pMin pMax pSize data i j)) mat

/-- The columns in turn; each shuffles the permutation that the one before it left. -/
def fillColumns (draws : SampleDraws) (pMin pMax : GslVector) (pSize nvar : Nat) :
    Option (GslMatrix × List Nat) :=
  (Simplex.indices nvar).bind fun columns =>
    columns.foldlM (fun state j =>
      let data := draws.shuffle j state.2
      (fillColumn draws pMin pMax pSize data state.1 j).map fun mat => (mat, data))
      (calloc pSize nvar, List.range pSize)

def sample (draws : SampleDraws) (pMin pMax : GslVector) (pSize : Nat) :
    Except SamplingFault GslMatrix :=
  if pMin.size ≠ pMax.size then .error .dimDontMatch
  else if pSize < 2 then .error .sampleSizeTooSmall
  else
    let nvar := Int.bmod pMax.size (2 ^ 32)
    -- `gsl_matrix_alloc` is asked for a matrix of about 2^64 columns.
    if nvar < 0 then .error .gslError
    else match fillColumns draws pMin pMax pSize nvar.toNat with
      | none => .error .endless
      | some (mat, _) => .ok mat

end LHS

end RlAqs
