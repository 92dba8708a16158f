import Mathlib.Algebra.BigOperators.Group.Finset.Basic
import Mathlib.Algebra.Ring.CharZero
import Mathlib.Algebra.Ring.Parity
import Mathlib.Data.Nat.Bitwise
import Mathlib.Tactic.Ring

/-!
Vectors over the numbers below a power of two whose entries are permuted by a mask and signed by
some of the bits. Two of them are orthogonal when the masks differ in an odd number of the
signing bits.
-/

namespace SignFlips

variable {K : Type*} [CommRing K]

def sign (bits : List Nat) (index : Nat) : K :=
  (bits.map fun bit => if index.testBit bit then (1 : K) else -1).prod

@[simp] theorem sign_nil (index : Nat) : (sign [] index : K) = 1 := rfl

theorem sign_cons (bit : Nat) (bits : List Nat) (index : Nat) :
    (sign (bit :: bits) index : K) = (if index.testBit bit then 1 else -1) * sign bits index := rfl

theorem sign_append (first second : List Nat) (index : Nat) :
    (sign (first ++ second) index : K) = sign first index * sign second index := by
  simp [sign]

theorem sign_cases (bits : List Nat) (index : Nat) :
    (sign bits index : K) = 1 ∨ (sign bits index : K) = -1 := by
  induction bits with
  | nil => exact .inl rfl
  | cons bit bits ih =>
      rw [sign_cons]
      rcases ih with positive | negative
      · rw [positive]
        split <;> simp
      · rw [negative]
        split <;> simp

theorem sign_xor (bits : List Nat) (index mask : Nat) :
    (sign bits (index ^^^ mask) : K) =
      (-1) ^ (bits.countP fun bit => mask.testBit bit) * sign bits index := by
  induction bits with
  | nil => simp
  | cons bit bits ih =>
      rw [sign_cons, sign_cons, ih, Nat.testBit_xor, List.countP_cons]
      cases mask.testBit bit with
      | false => simp
      | true => cases index.testBit bit <;> simp <;> ring

theorem sum_eq_zero_of_flip [IsAddTorsionFree K] {width mask : Nat}
    (bound : mask < 2 ^ width) {entry : Nat → K}
    (flips : ∀ index < 2 ^ width, entry (index ^^^ mask) = -entry index) :
    ∑ index ∈ Finset.range (2 ^ width), entry index = 0 := by
  refine Finset.sum_involution (fun index _ => index ^^^ mask) ?_ ?_ ?_ ?_
  · intro index inside
    rw [flips index (Finset.mem_range.mp inside), add_neg_cancel]
  · intro index inside nonzero fixed
    have flipped := flips index (Finset.mem_range.mp inside)
    rw [fixed] at flipped
    exact nonzero (self_eq_neg.mp flipped)
  · intro index inside
    exact Finset.mem_range.mpr (Nat.xor_lt_two_pow (Finset.mem_range.mp inside) bound)
  · intro index _
    rw [Nat.xor_assoc, Nat.xor_self, Nat.xor_zero]

theorem orthogonal [IsAddTorsionFree K] {width first second : Nat}
    (firstBound : first < 2 ^ width) (secondBound : second < 2 ^ width) (e : Nat → K)
    {firstBits secondBits : List Nat}
    (odd : Odd ((firstBits ++ secondBits).countP fun bit => (first ^^^ second).testBit bit)) :
    ∑ index ∈ Finset.range (2 ^ width),
      (sign firstBits index * e (index ^^^ first)) *
        (sign secondBits index * e (index ^^^ second)) = 0 := by
  apply sum_eq_zero_of_flip (Nat.xor_lt_two_pow firstBound secondBound)
  intro index _
  have swapFirst : index ^^^ (first ^^^ second) ^^^ first = index ^^^ second := by
    rw [Nat.xor_assoc, Nat.xor_comm first second, Nat.xor_assoc, Nat.xor_self, Nat.xor_zero]
  have swapSecond : index ^^^ (first ^^^ second) ^^^ second = index ^^^ first := by
    rw [Nat.xor_assoc, Nat.xor_assoc, Nat.xor_self, Nat.xor_zero]
  have flipped : (sign firstBits (index ^^^ (first ^^^ second)) : K) *
      sign secondBits (index ^^^ (first ^^^ second)) =
        -(sign firstBits index * sign secondBits index) := by
    rw [← sign_append, sign_xor, odd.neg_one_pow, sign_append]
    ring
  rw [swapFirst, swapSecond]
  calc sign firstBits (index ^^^ (first ^^^ second)) * e (index ^^^ second) *
        (sign secondBits (index ^^^ (first ^^^ second)) * e (index ^^^ first))
      = sign firstBits (index ^^^ (first ^^^ second)) *
          sign secondBits (index ^^^ (first ^^^ second)) *
            (e (index ^^^ first) * e (index ^^^ second)) := by ring
    _ = -(sign firstBits index * e (index ^^^ first) *
          (sign secondBits index * e (index ^^^ second))) := by
        rw [flipped]
        ring

end SignFlips
