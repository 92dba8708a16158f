import RlAqs.Library.SignFlips
import RlAqs.Sampling.LatinCore
import Mathlib.Algebra.Field.Rat
import Mathlib.Algebra.BigOperators.Ring.Finset
import Mathlib.Tactic.Linarith

/-!
The columns of `matrixM` and `matrixS`: each is the vector `e` with its indices changed by a mask
of bits, and the signs of at most two bits.
-/

namespace RlAqs

namespace LHS

open GslMatrix SignFlips

variable {garbage t a b : GslMatrix} {n m k i j : Nat}

/-! Matrices that permute the entries of a vector. -/

/-- The row `i` has its only one at the index that differs from `i` in the bits of the mask. -/
structure Swaps (t : GslMatrix) (n mask : Nat) : Prop where
  size1 : t.size1 = 2 ^ n
  size2 : t.size2 = 2 ^ n
  bound : mask < 2 ^ n
  get : ∀ i < 2 ^ n, ∀ j < 2 ^ n, t.get i j = if j = i ^^^ mask then 1 else 0

theorem eq_xor_double_iff (i j mask bit : Nat) (small : bit < 2) :
    j = i ^^^ (2 * mask + bit) ↔ j / 2 = i / 2 ^^^ mask ∧ j % 2 = (i + bit) % 2 := by
  have half : (i ^^^ (2 * mask + bit)) / 2 = i / 2 ^^^ mask := by
    rw [Nat.xor_div_two]
    congr 1
    omega
  have last : (i ^^^ (2 * mask + bit)) % 2 = (i + bit) % 2 := by
    rw [Nat.xor_mod_two_eq]
    omega
  constructor
  · rintro rfl
    exact ⟨half, last⟩
  · rintro ⟨upper, lower⟩
    omega

theorem Swaps.kronecker {mask bit : Nat} (swaps : Swaps t n mask) (small : bit < 2)
    {factor : GslMatrix} (size1 : factor.size1 = 2) (size2 : factor.size2 = 2)
    (entries : ∀ i < 2, ∀ j < 2, factor.get i j = if j = (i + bit) % 2 then 1 else 0) :
    Swaps (LHS.kronecker t factor) (n + 1) (2 * mask + bit) where
  size1 := by rw [LHS.kronecker, swaps.size1, size1, pow_succ]
  size2 := by rw [LHS.kronecker, swaps.size2, size2, pow_succ]
  bound := by
    have bound := swaps.bound
    rw [pow_succ]
    omega
  get := by
    intro i inside j inside'
    rw [pow_succ] at inside inside'
    simp only [LHS.kronecker, size1, size2]
    rw [swaps.get _ (by omega) _ (by omega), entries _ (by omega) _ (by omega)]
    simp only [eq_xor_double_iff i j mask bit small, Nat.mod_add_mod]
    by_cases upper : j / 2 = i / 2 ^^^ mask <;> by_cases lower : j % 2 = (i + bit) % 2 <;>
      simp [upper, lower]

theorem Swaps.kronecker_I {mask : Nat} (swaps : Swaps t n mask) :
    Swaps (LHS.kronecker t matrixI) (n + 1) (2 * mask) := by
  refine swaps.kronecker (by omega : 0 < 2) rfl rfl fun i small j small' => ?_
  simp only [matrixI, setIdentity, Nat.add_zero, Nat.mod_eq_of_lt small, eq_comm]

theorem Swaps.kronecker_R {mask : Nat} (swaps : Swaps t n mask) :
    Swaps (LHS.kronecker t matrixR) (n + 1) (2 * mask + 1) := by
  refine swaps.kronecker (by omega : 1 < 2) rfl rfl fun i small j small' => ?_
  have other : j = (i + 1) % 2 ↔ ¬i = j := by omega
  simp only [matrixR, other]
  split <;> rfl

theorem setIdentity_swaps (size1 : t.size1 = 2) (size2 : t.size2 = 2) :
    Swaps t.setIdentity 1 0 where
  size1 := size1
  size2 := size2
  bound := by omega
  get := by
    intro i _ j _
    simp only [setIdentity, Nat.xor_zero, eq_comm]

theorem matrixR_swaps : Swaps matrixR 1 1 where
  size1 := rfl
  size2 := rfl
  bound := by omega
  get := by decide

theorem identities_swaps (size1 : t.size1 = 2) (size2 : t.size2 = 2) (count : Nat) :
    Swaps ((List.range' 1 (count + 1)).foldl
      (fun t i => if i = 1 then t.setIdentity else LHS.kronecker t matrixI) t) (count + 1) 0 := by
  induction count with
  | zero => exact setIdentity_swaps size1 size2
  | succ count ih =>
      rw [List.range'_concat, List.foldl_concat, if_neg (by omega)]
      exact ih.kronecker_I

theorem double_pred (k : Nat) : 2 * (2 ^ k - 1) + 1 = 2 ^ (k + 1) - 1 := by
  have positive := Nat.two_pow_pos k
  rw [pow_succ]
  omega

theorem swapped_after (swaps : Swaps t n 0) (count : Nat) {skipped : Nat} (some : skipped ≠ 0) :
    Swaps ((List.range' 1 count).foldl
      (fun t i => if skipped = 0 ∧ i = 1 then matrixR else LHS.kronecker t matrixR) t)
      (n + count) (2 ^ count - 1) := by
  induction count with
  | zero => exact swaps
  | succ count ih =>
      rw [List.range'_concat, List.foldl_concat, if_neg (fun none => some none.1), ← double_pred]
      exact ih.kronecker_R

theorem swapped_only (t : GslMatrix) (count : Nat) {skipped : Nat} (none : skipped = 0) :
    Swaps ((List.range' 1 (count + 1)).foldl
      (fun t i => if skipped = 0 ∧ i = 1 then matrixR else LHS.kronecker t matrixR) t)
      (count + 1) (2 ^ (count + 1) - 1) := by
  induction count with
  | zero =>
      subst none
      exact matrixR_swaps
  | succ count ih =>
      rw [List.range'_concat, List.foldl_concat, if_neg (by omega), ← double_pred]
      exact ih.kronecker_R

theorem matrixA_swaps (garbage : GslMatrix) (positive : 1 ≤ k) (bound : k ≤ m - 1) :
    Swaps (matrixA garbage m k) (m - 1) (2 ^ k - 1) := by
  unfold matrixA
  rcases Nat.eq_zero_or_pos (m - 1 - k) with last | more
  · obtain ⟨count, rfl⟩ := Nat.exists_eq_add_of_le' positive
    have width : m - 1 = count + 1 := by omega
    rw [width]
    exact swapped_only _ count (by omega)
  · obtain ⟨count, skipped⟩ := Nat.exists_eq_add_of_le' more
    have width : m - 1 = m - 1 - k + k := by omega
    rw [skipped] at width ⊢
    rw [width]
    exact swapped_after (identities_swaps rfl rfl count) k (by omega)

/-! What the matrices do to a vector and to each other. -/

theorem Swaps.dgemv {mask : Nat} (swaps : Swaps t n mask) (x : Nat → ℚ) (inside : i < 2 ^ n) :
    t.dgemv x i = x (i ^^^ mask) := by
  have place : i ^^^ mask < 2 ^ n := Nat.xor_lt_two_pow inside swaps.bound
  rw [GslMatrix.dgemv, swaps.size2, Finset.sum_eq_single (i ^^^ mask)]
  · rw [swaps.get i inside _ place, if_pos rfl, one_mul]
  · intro j member other
    rw [swaps.get i inside j (Finset.mem_range.mp member), if_neg other, zero_mul]
  · intro outside
    exact absurd (Finset.mem_range.mpr place) outside

theorem Swaps.dgemm {first second : Nat} (left : Swaps a n first) (right : Swaps b n second) :
    Swaps (a.dgemm b) n (first ^^^ second) where
  size1 := left.size1
  size2 := right.size2
  bound := Nat.xor_lt_two_pow left.bound right.bound
  get := by
    intro i inside j inside'
    have place : i ^^^ first < 2 ^ n := Nat.xor_lt_two_pow inside left.bound
    have single := left.dgemv (fun l => b.get l j) inside
    simp only [GslMatrix.dgemv] at single
    simp only [GslMatrix.dgemm]
    rw [single, right.get _ place j inside', Nat.xor_assoc]

/-! Columns that are set one after the other. -/

theorem setCol_get_self (matrix : GslMatrix) (column : Nat) (entries : Nat → ℚ) :
    (matrix.setCol column entries).get i column = entries i := if_pos rfl

theorem setCol_get_of_ne {column : Nat} (other : j ≠ column) (matrix : GslMatrix)
    (entries : Nat → ℚ) : (matrix.setCol column entries).get i j = matrix.get i j := if_neg other

theorem foldl_setCol_other (columns : List Nat) (place : Nat → Nat) (entries : Nat → Nat → ℚ)
    (matrix : GslMatrix) (outside : ∀ k ∈ columns, place k ≠ j) :
    (columns.foldl (fun matrix k => matrix.setCol (place k) (entries k)) matrix).get i j =
      matrix.get i j := by
  induction columns generalizing matrix with
  | nil => rfl
  | cons first rest ih =>
      rw [List.foldl_cons, ih _ fun k member => outside k (List.mem_cons_of_mem _ member)]
      exact setCol_get_of_ne (outside first List.mem_cons_self).symm _ _

theorem foldl_setCol_self {columns : List Nat} {place : Nat → Nat} (entries : Nat → Nat → ℚ)
    (matrix : GslMatrix) (injective : place.Injective) (member : k ∈ columns) :
    (columns.foldl (fun matrix k => matrix.setCol (place k) (entries k)) matrix).get i (place k) =
      entries k i := by
  induction columns generalizing matrix with
  | nil => cases member
  | cons first rest ih =>
      rw [List.foldl_cons]
      by_cases later : k ∈ rest
      · exact ih _ later
      · obtain rfl : k = first := (List.mem_cons.mp member).resolve_right later
        rw [foldl_setCol_other _ _ _ _ fun other inside same => ?_]
        · exact setCol_get_self _ _ _
        · exact later (injective same ▸ inside)

/-! The columns of `matrixM`. -/

def mask (m column : Nat) : Nat :=
  if column < m then 2 ^ column - 1 else (2 ^ (m - 1) - 1) ^^^ (2 ^ (column - m + 1) - 1)

theorem mask_lt (m : Nat) {column : Nat} (inside : column < 2 * m - 2) :
    mask m column < 2 ^ (m - 1) := by
  have below {count : Nat} (bound : count ≤ m - 1) : 2 ^ count - 1 < 2 ^ (m - 1) := by
    have positive := Nat.two_pow_pos count
    have mono : 2 ^ count ≤ 2 ^ (m - 1) := Nat.pow_le_pow_right (by omega) bound
    omega
  unfold mask
  split
  · exact below (by omega)
  · exact Nat.xor_lt_two_pow (below (Nat.le_refl _)) (below (by omega))

theorem matrixM_get (garbage : GslMatrix) (e : GslVector) (inside : i < 2 ^ (m - 1))
    (column : j < 2 * m - 2) : (matrixM garbage m e).get i j = e.get (i ^^^ mask m j) := by
  have shifted : (fun k => m + k).Injective := fun _ _ same => Nat.add_left_cancel same
  unfold matrixM mask
  dsimp only
  rcases Nat.lt_or_ge j m with below | above
  · rw [if_pos below, foldl_setCol_other _ (fun k => m + k) _ _ fun k _ => by omega]
    rcases Nat.eq_zero_or_pos j with rfl | positive
    · rw [foldl_setCol_other _ (fun k => k) _ _ fun k member => ?_]
      · rw [setCol_get_self, pow_zero, Nat.sub_self, Nat.xor_zero]
      · have first := (List.mem_range'_1.mp member).1
        omega
    · have member : j ∈ List.range' 1 (m - 1) := List.mem_range'_1.mpr (by omega)
      rw [foldl_setCol_self (fun k => (matrixA garbage m k).dgemv e.get) _
        (fun _ _ same => same : (fun k : Nat => k).Injective) member]
      exact (matrixA_swaps garbage positive (by omega)).dgemv e.get inside
  · obtain ⟨k, rfl⟩ := Nat.exists_eq_add_of_le above
    have member : k ∈ List.range (m - 2) := List.mem_range.mpr (by omega)
    rw [if_neg (by omega), Nat.add_sub_cancel_left, foldl_setCol_self (fun k =>
      ((matrixA garbage m (m - 1)).dgemm (matrixA garbage m (k + 1))).dgemv e.get) _ shifted member]
    exact ((matrixA_swaps garbage (by omega) (Nat.le_refl _)).dgemm
      (matrixA_swaps garbage (by omega) (by omega))).dgemv e.get inside

/-! The columns of `matrixS`. -/

structure Signs (t : GslMatrix) (n : Nat) (bits : List Nat) : Prop where
  size1 : t.size1 = 2 ^ n
  size2 : t.size2 = 1
  get : ∀ i < 2 ^ n, t.get i 0 = sign bits i

theorem sign_shift (bits : List Nat) (i : Nat) :
    (sign (bits.map fun bit => bit + 1) i : ℚ) = sign bits (i / 2) := by
  simp [sign, Function.comp_def, Nat.testBit_add_one]

theorem Signs.kronecker_Bi {bits : List Nat} (signs : Signs t n bits) :
    Signs (kronecker t matrixBi) (n + 1) (bits.map fun bit => bit + 1) where
  size1 := by rw [kronecker, signs.size1, pow_succ]; rfl
  size2 := by rw [kronecker, signs.size2]; rfl
  get := by
    intro i inside
    rw [pow_succ] at inside
    rw [sign_shift, ← signs.get (i / 2) (by omega)]
    simp [kronecker, matrixBi]

theorem Signs.kronecker_Bk (signs : Signs t n []) : Signs (kronecker t matrixBk) (n + 1) [0] where
  size1 := by rw [kronecker, signs.size1, pow_succ]; rfl
  size2 := by rw [kronecker, signs.size2]; rfl
  get := by
    intro i inside
    rw [pow_succ] at inside
    have ones := signs.get (i / 2) (by omega)
    rcases Nat.mod_two_eq_zero_or_one i with even | odd
    · simp [kronecker, matrixBk, ones, even, sign_cons, Nat.testBit_zero]
    · simp [kronecker, matrixBk, ones, odd, sign_cons, Nat.testBit_zero]

theorem matrixBk_signs : Signs matrixBk 1 [0] := ⟨rfl, rfl, by decide +kernel⟩

theorem factors_signs (positive : 1 ≤ k) (bound : k ≤ m - 1) (count : Nat) :
    Signs ((List.range' 1 count).foldl
        (fun t i => kronecker t (if i ≠ m - 1 - k then matrixBi else matrixBk))
        (if k = m - 1 then matrixBk else matrixBi))
      (count + 1) (if m - 1 - k ≤ count then [count - (m - 1 - k)] else []) := by
  induction count with
  | zero =>
      by_cases last : k = m - 1
      · rw [if_pos last, if_pos (by omega)]
        have zero : 0 - (m - 1 - k) = 0 := by omega
        rw [zero]
        exact matrixBk_signs
      · rw [if_neg last, if_neg (by omega)]
        exact ⟨rfl, rfl, fun i _ => rfl⟩
  | succ count ih =>
      rw [List.range'_concat, List.foldl_concat]
      generalize (if k = m - 1 then matrixBk else matrixBi) = initial at ih ⊢
      by_cases here : 1 + 1 * count = m - 1 - k
      · rw [if_neg (by omega)] at ih
        rw [if_neg (by omega), if_pos (by omega)]
        have zero : count + 1 - (m - 1 - k) = 0 := by omega
        rw [zero]
        exact ih.kronecker_Bk
      · rw [if_pos here]
        have shifted : (if m - 1 - k ≤ count + 1 then [count + 1 - (m - 1 - k)] else []) =
            (if m - 1 - k ≤ count then [count - (m - 1 - k)] else []).map fun bit => bit + 1 := by
          by_cases past : m - 1 - k ≤ count
          · rw [if_pos past, if_pos (by omega), List.map_singleton]
            congr 1
            omega
          · rw [if_neg past, if_neg (by omega), List.map_nil]
        rw [shifted]
        exact ih.kronecker_Bi

theorem matrixB_signs (positive : 1 ≤ k) (bound : k ≤ m - 1) :
    Signs (matrixB m k) (m - 1) [k - 1] := by
  have signs := factors_signs positive bound (m - 2)
  have width : m - 2 + 1 = m - 1 := by omega
  have bit : m - 2 - (m - 1 - k) = k - 1 := by omega
  unfold matrixB
  generalize (if k = m - 1 then matrixBk else matrixBi) = initial at signs ⊢
  rwa [width, if_pos (by omega), bit] at signs

def bits (m column : Nat) : List Nat :=
  if column = 0 then [] else if column < m then [column - 1] else [0, column - m + 1]

/-- The columns with two bits are products of earlier columns, which stay as they are. -/
theorem foldl_products (matrix : GslMatrix) (count : Nat) :
    let products := (List.range count).foldl (fun matrix j =>
      matrix.setCol (m + j) fun i => matrix.get i 1 * matrix.get i (j + 2)) matrix
    (∀ j < m, products.get i j = matrix.get i j) ∧
      ∀ j < count, 1 < m → j + 2 < m →
        products.get i (m + j) = matrix.get i 1 * matrix.get i (j + 2) := by
  induction count with
  | zero => exact ⟨fun _ _ => rfl, fun j bound => absurd bound (Nat.not_lt_zero j)⟩
  | succ count ih =>
      obtain ⟨kept, products⟩ := ih
      simp only [List.range_succ, List.foldl_concat]
      constructor
      · intro j below
        rw [setCol_get_of_ne (by omega)]
        exact kept j below
      · intro j bound one below
        by_cases last : j = count
        · subst last
          rw [setCol_get_self, kept 1 one, kept (j + 2) below]
        · rw [setCol_get_of_ne (by omega)]
          exact products j (by omega) one below

theorem matrixS_get (inside : i < 2 ^ (m - 1)) (column : j < 2 * m - 2) :
    (matrixS m).get i j = sign (bits m j) i := by
  have single {k : Nat} (positive : 1 ≤ k) (bound : k < m) :
      ((List.range' 1 (m - 1)).foldl
        (fun matrix k => matrix.setCol k fun i => (matrixB m k).get i 0)
        ((calloc (2 ^ (m - 1)) (2 * m - 2)).setAll 1)).get i k = sign [k - 1] i := by
    rw [foldl_setCol_self (fun k i => (matrixB m k).get i 0) _
      (fun _ _ same => same : (fun k : Nat => k).Injective)
      (List.mem_range'_1.mpr (by omega) : k ∈ List.range' 1 (m - 1))]
    exact (matrixB_signs positive (by omega)).get i inside
  unfold matrixS bits
  dsimp only
  rcases Nat.lt_or_ge j m with below | above
  · rw [(foldl_products _ _).1 j below]
    rcases Nat.eq_zero_or_pos j with rfl | positive
    · rw [foldl_setCol_other _ (fun k => k) _ _ fun k member => ?_]
      · rfl
      · have first := (List.mem_range'_1.mp member).1
        omega
    · rw [if_neg positive.ne', if_pos below]
      exact single positive below
  · obtain ⟨k, rfl⟩ := Nat.exists_eq_add_of_le above
    rw [if_neg (by omega), if_neg (by omega), Nat.add_sub_cancel_left,
      (foldl_products _ _).2 k (by omega) (by omega) (by omega), single (by omega) (by omega),
      single (by omega) (by omega), ← sign_append]
    rfl

end LHS

end RlAqs
