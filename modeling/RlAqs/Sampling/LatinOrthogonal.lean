import RlAqs.Sampling.LatinColumns
import Mathlib.Algebra.BigOperators.Intervals
import Mathlib.Tactic.Linarith

/-!
The masks of two columns of the design differ in an odd number of bits. The rows that they sign, and
those mirrored about the middle row, are orthogonal.
-/

namespace RlAqs

namespace LHS

open GslMatrix SignFlips

variable {garbage matrix : GslMatrix} {e pMin pMax : GslVector} {m j k bit row : Nat}

/-! The signing bits of two columns. -/

theorem mask_testBit_below (below : j < m) : (mask m j).testBit bit = decide (bit < j) := by
  rw [mask, if_pos below, Nat.testBit_two_pow_sub_one]

theorem mask_testBit_above (inside : bit < m - 1) (j : Nat) :
    (mask m (m + j)).testBit bit = decide (j < bit) := by
  rw [mask, if_neg (by omega), Nat.add_sub_cancel_left, Nat.testBit_xor,
    Nat.testBit_two_pow_sub_one, Nat.testBit_two_pow_sub_one, decide_eq_true inside, Bool.true_xor,
    ← decide_not]
  exact decide_eq_decide.mpr (by omega)

theorem bits_below (positive : 0 < j) (below : j < m) : bits m j = [j - 1] := by
  rw [bits, if_neg positive.ne', if_pos below]

theorem bits_above (positive : 0 < m) (j : Nat) : bits m (m + j) = [0, j + 1] := by
  rw [bits, if_neg (by omega), if_neg (by omega), Nat.add_sub_cancel_left]

/-- The masks of two columns differ in an odd number of their signing bits. -/
theorem bits_odd (order : j < k) (bound : k < 2 * m - 2) :
    Odd ((bits m j ++ bits m k).countP fun bit => (mask m j ^^^ mask m k).testBit bit) := by
  have differ (p q : Prop) [Decidable p] [Decidable q] :
      ((decide p ^^ decide q) = true) = ¬(p ↔ q) := by
    rw [Bool.xor_iff_ne, ne_eq, decide_eq_decide]
  rw [Nat.odd_iff]
  rcases Nat.lt_or_ge k m with below | above
  · rw [bits_below (by omega) below]
    rcases Nat.eq_zero_or_pos j with rfl | positive
    · simp only [bits, if_true, List.nil_append, List.countP_cons, List.countP_nil,
        Nat.testBit_xor, mask_testBit_below (order.trans below), mask_testBit_below below, differ]
      split_ifs <;> omega
    · rw [bits_below positive (by omega)]
      simp only [List.cons_append, List.nil_append, List.countP_cons, List.countP_nil,
        Nat.testBit_xor, mask_testBit_below (order.trans below), mask_testBit_below below, differ]
      split_ifs <;> omega
  · obtain ⟨k, rfl⟩ := Nat.exists_eq_add_of_le above
    rw [bits_above (by omega)]
    have zero : 0 < m - 1 := by omega
    have last : k + 1 < m - 1 := by omega
    rcases Nat.lt_or_ge j m with below | above
    · rcases Nat.eq_zero_or_pos j with rfl | positive
      · simp only [bits, if_true, List.nil_append, List.countP_cons, List.countP_nil,
          Nat.testBit_xor, mask_testBit_below below, mask_testBit_above zero,
          mask_testBit_above last, differ]
        split_ifs <;> omega
      · rw [bits_below positive below]
        simp only [List.cons_append, List.nil_append, List.countP_cons, List.countP_nil,
          Nat.testBit_xor, mask_testBit_below below, mask_testBit_above zero,
          mask_testBit_above last, mask_testBit_above (by omega : j - 1 < m - 1), differ]
        split_ifs <;> omega
    · obtain ⟨j, rfl⟩ := Nat.exists_eq_add_of_le above
      rw [bits_above (by omega)]
      simp only [List.cons_append, List.nil_append, List.countP_cons, List.countP_nil,
        Nat.testBit_xor, mask_testBit_above zero, mask_testBit_above last,
        mask_testBit_above (by omega : j + 1 < m - 1), differ]
      split_ifs <;> omega

/-! The design before it is shifted and scaled. -/

def signed (m : Nat) (e : GslVector) (row column : Nat) : ℚ :=
  sign (bits m column) row * e.get (row ^^^ mask m column)

def mirrored (m : Nat) (e : GslVector) (row column : Nat) : ℚ :=
  if row < 2 ^ (m - 1) then signed m e row column
  else if row = 2 ^ (m - 1) then 0
  else -signed m e (row - (2 ^ (m - 1) + 1)) column

theorem two_pow_eq (many : 2 ≤ m) : 2 ^ m = 2 ^ (m - 1) + 2 ^ (m - 1) := by
  obtain ⟨m, rfl⟩ := Nat.exists_eq_add_of_le many
  rw [show 2 + m - 1 = m + 1 by omega, show 2 + m = m + 1 + 1 by omega, pow_succ 2 (m + 1)]
  omega

theorem signed_orthogonal (order : j < k) (bound : k < 2 * m - 2) (e : GslVector) :
    ∑ row ∈ Finset.range (2 ^ (m - 1)), signed m e row j * signed m e row k = 0 :=
  orthogonal (mask_lt m (order.trans bound)) (mask_lt m bound) e.get (bits_odd order bound)

theorem signed_orthogonal_of_ne (inside : j < 2 * m - 2) (bound : k < 2 * m - 2) (other : j ≠ k)
    (e : GslVector) :
    ∑ row ∈ Finset.range (2 ^ (m - 1)), signed m e row j * signed m e row k = 0 := by
  rcases Nat.lt_or_gt_of_ne other with before | after
  · exact signed_orthogonal before bound e
  · simp only [mul_comm (signed m e _ j)]
    exact signed_orthogonal after inside e

theorem mirrored_first (inside : row < 2 ^ (m - 1)) (e : GslVector) (column : Nat) :
    mirrored m e row column = signed m e row column := if_pos inside

theorem mirrored_middle (m : Nat) (e : GslVector) (column : Nat) :
    mirrored m e (2 ^ (m - 1)) column = 0 := by
  rw [mirrored, if_neg (lt_irrefl _), if_pos rfl]

theorem mirrored_last (m : Nat) (e : GslVector) (row column : Nat) :
    mirrored m e (2 ^ (m - 1) + 1 + row) column = -signed m e row column := by
  rw [mirrored, if_neg (by omega), if_neg (by omega), Nat.add_sub_cancel_left]

theorem mirrored_orthogonal (many : 2 ≤ m) (inside : j < 2 * m - 2) (bound : k < 2 * m - 2)
    (other : j ≠ k) (e : GslVector) :
    ∑ row ∈ Finset.range (2 ^ m + 1), mirrored m e row j * mirrored m e row k = 0 := by
  have rows : 2 ^ m + 1 = 2 ^ (m - 1) + 1 + 2 ^ (m - 1) := by
    rw [two_pow_eq many]
    omega
  have signs := signed_orthogonal_of_ne inside bound other e
  rw [rows, Finset.sum_range_add, Finset.sum_range_succ, mirrored_middle, zero_mul, add_zero]
  simp only [mirrored_last, neg_mul_neg]
  rw [signs, add_zero, ← signs]
  refine Finset.sum_congr rfl fun row member => ?_
  have inside := Finset.mem_range.mp member
  rw [mirrored_first inside, mirrored_first inside]

end LHS

end RlAqs
