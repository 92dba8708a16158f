import RlAqs.Library.Counter
import RlAqs.Sampling.LatinSampleCore

/-!
The search of the optimal `LHS::sample`, which tries candidates in rounds and puts the best design
together at its end. The random integers are a stream that `uniqueInts` reads on from where the
call before it stopped. A call and a loop have a fuel each.
-/

namespace RlAqs

namespace LHS

/-- What the search takes from GSL: the matrices it allocates without clearing them, the root of
a sum of squares, `gsl_permutation_next` and the generator. -/
structure SearchTools where
  garbage : GslMatrix
  sqrt : ℚ → ℚ
  next : List Nat → Option (List Nat)
  /-- The permutation of the first vector. -/
  shuffle : List Nat → List Nat
  shuffle_perm : ∀ data, (shuffle data).Perm data
  ints : Nat → Nat

def euclideanDistance (sqrt : ℚ → ℚ) (mat : GslMatrix) : List ℚ :=
  (List.range (mat.size2 - 1)).flatMap fun i =>
    (List.range' (i + 1) (mat.size2 - (i + 1))).map fun j =>
      sqrt (∑ row ∈ Finset.range mat.size1, (mat.get row i - mat.get row j) ^ 2)

def vectorMin : List ℚ → ℚ
  | [] => 0
  | first :: rest => rest.foldl min first

def minDistance (tools : SearchTools) (m : Nat) (e : GslVector) : ℚ :=
  vectorMin (euclideanDistance tools.sqrt (matrixM tools.garbage m e))

/-- The `do` loop of `uniqueInts`: the second integer and how many are read by then. -/
def secondInt (ints : Nat → Nat) (maxVal r1 : Nat) : Nat → Nat → Option (Nat × Nat)
  | 0, _ => none
  | fuel + 1, position =>
      let r2 := ints position % maxVal
      if r1 ≠ r2 then secondInt ints maxVal r1 fuel (position + 1) else some (r2, position + 1)

def uniqueInts (ints : Nat → Nat) (maxVal fuel position : Nat) : Option (Nat × Nat × Nat) :=
  let r1 := ints position % maxVal
  (secondInt ints maxVal r1 fuel (position + 1)).map fun (r2, position) => (r1, r2, position)

structure Candidate where
  r1 : Nat
  r2 : Nat
  e : GslVector
  e1 : GslVector
  /-- The vector that the design is made of. -/
  evaluated : GslVector
  minDist : ℚ

structure Search where
  /-- How many random integers are read. -/
  position : Nat
  permutation : List Nat
  e : GslVector
  /-- The vector of the design in `Mt`. -/
  best : GslVector
  minDist : ℚ
  /-- The candidates, newest first. -/
  tried : List Candidate

def exchange (e : GslVector) (r1 r2 : Nat) : GslVector :=
  { e with get := Function.update (Function.update e.get r1 (e.get r2)) r2 (e.get r1) }

/-- The vector of a permutation; its entries are set with a counter of 16 bits. -/
def permutationVector (size : Nat) (permutation : List Nat) : Option GslVector :=
  (Simplex.indices size).map fun _ => ⟨size, fun i => permutation.getD i 0 + 1⟩

def size (m : Nat) : Nat := 2 ^ (m - 1)

def permutations (m : Nat) : Nat := size m * (size m + 1) % 2 ^ 32

section Search

variable (tools : SearchTools) (m callFuel fuel : Nat)

def candidate (state : Search) : Except SamplingFault Search :=
  match uniqueInts tools.ints (size m) callFuel state.position with
  | none => .error .unreturned
  | some (r1, r2, position) =>
      let e1 := exchange state.e r1 r2
      -- The vector with the two entries exchanged is not looked at again.
      let minDistTemp := minDistance tools m state.e
      let tried := ⟨r1, r2, state.e, e1, state.e, minDistTemp⟩ :: state.tried
      if minDistTemp > state.minDist then
        .ok { state with
          position := position, best := state.e, minDist := minDistTemp, tried := tried }
      else .ok { state with position := position, tried := tried }

def candidates (state : Search) : Except SamplingFault Search :=
  Counter.loop .unfinished 65536 (permutations m)
    (fun _ state => (candidate tools m callFuel state).map .next) fuel 0 state

/-- A turn of the outer loop, which is left at the last permutation. -/
def round (state : Search) : Except SamplingFault (Counter.Turn Search) :=
  match candidates tools m callFuel fuel state with
  | .error fault => .error fault
  | .ok state =>
      match tools.next state.permutation with
      | none => .ok (.leave state)
      | some permutation =>
          match permutationVector (size m) permutation with
          | none => .error .endless
          | some e => .ok (.next { state with permutation := permutation, e := e })

def search (pR : Nat) : Except SamplingFault Search :=
  let permutation := tools.shuffle (List.range (size m))
  match permutationVector (size m) permutation with
  | none => .error .endless
  | some e =>
      Counter.loop .unfinished 65536 pR (fun _ state => round tools m callFuel fuel state) fuel 0
        { position := 0
          permutation := permutation
          e := e
          best := e
          minDist := minDistance tools m e
          tried := [] }

/-- `p_r` is positive. From 31 on `1 << p_size` is no size of a matrix. -/
def sampleOptimal (pMin pMax : GslVector) (pR : Nat) : Except SamplingFault GslMatrix :=
  if pMin.size ≠ pMax.size then .error .dimDontMatch
  else if m < 2 then .error .sampleSizeTooSmall
  else if 31 ≤ m then .error .gslError
  else
    match search tools m callFuel fuel pR with
    | .error fault => .error fault
    | .ok state =>
        match design tools.garbage m state.best pMin pMax with
        | some mat => .ok mat
        -- `gsl_vector_memcpy` stops at a vector that is longer than a row.
        | none => if 2 * m - 2 < pMin.size then .error .gslError else .error .endless

end Search

end LHS

end RlAqs
