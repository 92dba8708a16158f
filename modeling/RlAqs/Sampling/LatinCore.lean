import RlAqs.Learner.SimplexCore
import Mathlib.Algebra.BigOperators.Group.Finset.Defs

/-!
The orthogonal Latin hypercube of `LHS.cc`: the matrices of permuted and of signed entries, and
the last part of the optimal `LHS::sample`, which puts the design together. The operations of
GSL that it uses come first.
-/

namespace RlAqs

structure GslVector where
  size : Nat
  get : Nat → ℚ

/-- The entries beyond the sizes have no meaning. -/
structure GslMatrix where
  size1 : Nat
  size2 : Nat
  get : Nat → Nat → ℚ

namespace GslMatrix

def calloc (size1 size2 : Nat) : GslMatrix := ⟨size1, size2, fun _ _ => 0⟩

def setAll (matrix : GslMatrix) (value : ℚ) : GslMatrix :=
  { matrix with get := fun _ _ => value }

def setIdentity (matrix : GslMatrix) : GslMatrix :=
  { matrix with get := fun i j => if i = j then 1 else 0 }

def setCol (matrix : GslMatrix) (column : Nat) (entries : Nat → ℚ) : GslMatrix :=
  { matrix with get := fun i j => if j = column then entries i else matrix.get i j }

def setRow (matrix : GslMatrix) (row : Nat) (entries : Nat → ℚ) : GslMatrix :=
  { matrix with get := fun i j => if i = row then entries j else matrix.get i j }

def copyRows (matrix : GslMatrix) (first : Nat) (source : GslMatrix) : GslMatrix :=
  { matrix with get := fun i j =>
      if first ≤ i ∧ i < first + source.size1 then source.get (i - first) j else matrix.get i j }

def mulElements (a b : GslMatrix) : GslMatrix := { a with get := fun i j => a.get i j * b.get i j }

def add (a b : GslMatrix) : GslMatrix := { a with get := fun i j => a.get i j + b.get i j }

def sub (a b : GslMatrix) : GslMatrix := { a with get := fun i j => a.get i j - b.get i j }

def scale (matrix : GslMatrix) (factor : ℚ) : GslMatrix :=
  { matrix with get := fun i j => factor * matrix.get i j }

def addConstant (matrix : GslMatrix) (constant : ℚ) : GslMatrix :=
  { matrix with get := fun i j => matrix.get i j + constant }

/-- `gsl_blas_dgemv` with `CblasNoTrans`, 1 and 0. -/
def dgemv (a : GslMatrix) (x : Nat → ℚ) (i : Nat) : ℚ :=
  ∑ j ∈ Finset.range a.size2, a.get i j * x j

/-- `gsl_blas_dgemm` with `CblasNoTrans`, 1 and 0. -/
def dgemm (a b : GslMatrix) : GslMatrix where
  size1 := a.size1
  size2 := b.size2
  get i j := ∑ l ∈ Finset.range a.size2, a.get i l * b.get l j

end GslMatrix

namespace LHS

open GslMatrix

def kronecker (a b : GslMatrix) : GslMatrix where
  size1 := a.size1 * b.size1
  size2 := a.size2 * b.size2
  get i j := a.get (i / b.size1) (j / b.size2) * b.get (i % b.size1) (j % b.size2)

def matrixI : GslMatrix := (calloc 2 2).setIdentity

def matrixR : GslMatrix := ⟨2, 2, fun i j => if i = j then 0 else 1⟩

/-- The matrix that `A[k - 1]` is set to. `gsl_matrix_alloc` leaves `garbage` in it at first. -/
def matrixA (garbage : GslMatrix) (m k : Nat) : GslMatrix :=
  let t := (List.range' 1 (m - 1 - k)).foldl
    (fun t i => if i = 1 then t.setIdentity else kronecker t matrixI)
    { garbage with size1 := 2, size2 := 2 }
  (List.range' 1 k).foldl
    (fun t i => if m - 1 - k = 0 ∧ i = 1 then matrixR else kronecker t matrixR) t

def matrixM (garbage : GslMatrix) (m : Nat) (e : GslVector) : GslMatrix :=
  let first := (calloc (2 ^ (m - 1)) (2 * m - 2)).setCol 0 e.get
  let swapped := (List.range' 1 (m - 1)).foldl
    (fun matrix k => matrix.setCol k ((matrixA garbage m k).dgemv e.get)) first
  (List.range (m - 2)).foldl (fun matrix j => matrix.setCol (m + j)
    (((matrixA garbage m (m - 1)).dgemm (matrixA garbage m (j + 1))).dgemv e.get)) swapped

def matrixBk : GslMatrix := ⟨2, 1, fun i _ => if i = 0 then -1 else 1⟩

def matrixBi : GslMatrix := ⟨2, 1, fun _ _ => 1⟩

def matrixB (m k : Nat) : GslMatrix :=
  (List.range' 1 (m - 2)).foldl
    (fun t i => kronecker t (if i ≠ m - 1 - k then matrixBi else matrixBk))
    (if k = m - 1 then matrixBk else matrixBi)

def matrixS (m : Nat) : GslMatrix :=
  let first := (calloc (2 ^ (m - 1)) (2 * m - 2)).setAll 1
  let signed := (List.range' 1 (m - 1)).foldl
    (fun matrix k => matrix.setCol k fun i => (matrixB m k).get i 0) first
  (List.range (m - 2)).foldl (fun matrix j =>
    matrix.setCol (m + j) fun i => matrix.get i 1 * matrix.get i (j + 2)) signed

/-- `min` or `max` with an entry for every column: the last ones are `missing`. -/
def padded (columns : Nat) (missing : ℚ) (vector : GslVector) : Option GslVector :=
  if columns > vector.size then
    (Simplex.indices vector.size).map fun entries =>
      ⟨columns, entries.foldl (fun padded i => Function.update padded i (vector.get i))
        fun _ => missing⟩
  else some vector

/-- A matrix with the vector in every row. `gsl_vector_memcpy` wants a vector as long as a row. -/
def repeated (matrix : GslMatrix) (vector : GslVector) : Option GslMatrix :=
  if vector.size = matrix.size2 then
    (Simplex.indices matrix.size1).map fun rows =>
      rows.foldl (fun repeated i => repeated.setRow i vector.get)
        (calloc matrix.size1 matrix.size2)
  else none

def unitDesign (garbage : GslMatrix) (m : Nat) (e : GslVector) : GslMatrix :=
  let size := 2 ^ (m - 1)
  let mat := calloc (2 ^ m + 1) (2 * m - 2)
  let t := (matrixM garbage m e).mulElements (matrixS m)
  let mat := (mat.copyRows 0 t).copyRows (size + 1) (t.scale (-1))
  (mat.addConstant size).scale (1 / 2 ^ m)

/-- The design of the optimal `LHS::sample` for the vector `e` it has chosen, `none` when one of
its loops never ends or GSL stops the program. -/
def design (garbage : GslMatrix) (m : Nat) (e pMin pMax : GslVector) : Option GslMatrix :=
  let mat := unitDesign garbage m e
  (padded mat.size2 0 pMin).bind fun min =>
    (padded mat.size2 1 pMax).bind fun max =>
      (repeated mat min).bind fun lb =>
        (repeated mat max).map fun lub => (mat.mulElements (lub.sub lb)).add lb

end LHS

end RlAqs
