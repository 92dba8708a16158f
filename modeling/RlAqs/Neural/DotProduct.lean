import Mathlib.Algebra.BigOperators.Fin
import Mathlib.Algebra.Order.Interval.Finset.SuccPred
import Mathlib.Algebra.BigOperators.Intervals
import Mathlib.Data.Rat.Defs
import Mathlib.Tactic.IntervalCases
import Mathlib.Tactic.Linarith

/-!
`Vector::dotproduct`, which adds four products a turn. Its loop counts the turns, and yet goes
on by four.
-/

namespace RlAqs.Vector

section

variable {K : Type*} [Semiring K]

def accumulate (a b : List K) (i : Nat) (sum : K) : Option K :=
  match a[i]?, b[i]? with
  | some x, some y => some (sum + x * y)
  | _, _ => none

def block (a b : List K) (i : Nat) (sum : K) : Option K := do
  let sum ← accumulate a b i sum
  let sum ← accumulate a b (i + 1) sum
  let sum ← accumulate a b (i + 2) sum
  accumulate a b (i + 3) sum

def blocks (a b : List K) (k i : Nat) (sum : K) : Option (Nat × K) :=
  if i < k then (block a b i sum).bind fun sum => blocks a b k (i + 4) sum
  else some (i, sum)
termination_by k - i

-- Every case falls through to the next.
def remainder (a b : List K) (m i : Nat) (sum : K) : Option K :=
  match m with
  | 3 => do
      let sum ← accumulate a b i sum
      let sum ← accumulate a b (i + 1) sum
      accumulate a b (i + 2) sum
  | 2 => do
      let sum ← accumulate a b i sum
      accumulate a b (i + 1) sum
  | 1 => accumulate a b i sum
  | _ => some sum

def dotproduct (n : Nat) (a b : List K) : Option K :=
  let k := n / 4
  let m := n % 4
  (blocks a b k 0 0).bind fun (i, sum) => remainder a b m i sum

def blocksEnd (n : Nat) : Nat := 4 * ((n / 4 + 3) / 4)

def visited (n : Nat) : Nat := blocksEnd n + n % 4

theorem visited_le (n : Nat) : visited n ≤ n := by
  unfold visited blocksEnd
  omega

theorem visited_eq_iff (n : Nat) : visited n = n ↔ n < 8 := by
  unfold visited blocksEnd
  omega

variable {n : Nat}

def term (a b : Fin n → K) (i : Nat) : K :=
  if inside : i < n then a ⟨i, inside⟩ * b ⟨i, inside⟩ else 0

variable (a b : Fin n → K)

theorem term_fin (i : Fin n) : term a b i = a i * b i := by
  rw [term, dif_pos i.isLt]

theorem accumulate_ofFn {i : Nat} (inside : i < n) (sum : K) :
    accumulate (List.ofFn a) (List.ofFn b) i sum = some (sum + term a b i) := by
  simp only [accumulate, List.getElem?_ofFn, inside, dif_pos, term]

theorem block_ofFn {i : Nat} (inside : i + 4 ≤ n) (sum : K) :
    block (List.ofFn a) (List.ofFn b) i sum =
      some (sum + ∑ j ∈ Finset.Ico i (i + 4), term a b j) := by
  have four : ∑ j ∈ Finset.Ico i (i + 4), term a b j =
      term a b i + term a b (i + 1) + term a b (i + 2) + term a b (i + 3) := by
    rw [Finset.sum_Ico_eq_sum_range, show i + 4 - i = 4 by omega]
    simp only [Finset.sum_range_succ, Finset.sum_range_zero, zero_add, Nat.add_zero]
  simp only [block, Option.bind_eq_bind, accumulate_ofFn a b (show i < n by omega),
    accumulate_ofFn a b (show i + 1 < n by omega), accumulate_ofFn a b (show i + 2 < n by omega),
    accumulate_ofFn a b (show i + 3 < n by omega), Option.bind_some, four, add_assoc]

theorem blocks_ofFn {k i : Nat} (inside : k + 3 ≤ n ∨ k ≤ i) (sum : K) :
    blocks (List.ofFn a) (List.ofFn b) k i sum =
      some (i + 4 * ((k - i + 3) / 4),
        sum + ∑ j ∈ Finset.Ico i (i + 4 * ((k - i + 3) / 4)), term a b j) := by
  induction turns : k - i using Nat.strongRecOn generalizing i sum with
  | ind left ih =>
      rw [blocks]
      split
      · rename_i below
        have rest := ih (k - (i + 4)) (by omega) (i := i + 4) (by omega)
          (sum + ∑ j ∈ Finset.Ico i (i + 4), term a b j) rfl
        have ends : i + 4 + 4 * ((k - (i + 4) + 3) / 4) = i + 4 * ((left + 3) / 4) := by omega
        rw [block_ofFn a b (by omega), Option.bind_some, rest, ends, add_assoc,
          Finset.sum_Ico_consecutive _ (by omega) (by omega)]
      · obtain rfl : left = 0 := by omega
        simp

theorem remainder_ofFn {m i : Nat} (few : m < 4) (inside : i + m ≤ n) (sum : K) :
    remainder (List.ofFn a) (List.ofFn b) m i sum =
      some (sum + ∑ j ∈ Finset.Ico i (i + m), term a b j) := by
  have added : ∑ j ∈ Finset.Ico i (i + m), term a b j = ∑ j ∈ Finset.range m, term a b (i + j) := by
    rw [Finset.sum_Ico_eq_sum_range, Nat.add_sub_cancel_left]
  rw [added]
  interval_cases m
  · simp [remainder]
  · simp [remainder, accumulate_ofFn a b (show i < n by omega)]
  · simp [remainder, accumulate_ofFn a b (show i < n by omega),
      accumulate_ofFn a b (show i + 1 < n by omega), Finset.sum_range_succ, add_assoc]
  · simp [remainder, accumulate_ofFn a b (show i < n by omega),
      accumulate_ofFn a b (show i + 1 < n by omega), accumulate_ofFn a b (show i + 2 < n by omega),
      Finset.sum_range_succ, add_assoc]

theorem dotproduct_ofFn :
    dotproduct n (List.ofFn a) (List.ofFn b) =
      some (∑ i ∈ Finset.range (visited n), term a b i) := by
  have first : blocks (List.ofFn a) (List.ofFn b) (n / 4) 0 0 =
      some (blocksEnd n, ∑ i ∈ Finset.range (blocksEnd n), term a b i) := by
    simpa [blocksEnd] using blocks_ofFn a b (k := n / 4) (i := 0) (by omega) 0
  have rest := remainder_ofFn a b (m := n % 4) (i := blocksEnd n) (by omega) (visited_le n)
    (∑ i ∈ Finset.range (blocksEnd n), term a b i)
  rw [dotproduct, first, Option.bind_some]
  refine rest.trans ?_
  rw [Finset.sum_range_add_sum_Ico _ (Nat.le_add_right _ _), visited]

omit a b in
theorem dotproduct_returns {a b : List K} (left : a.length = n) (right : b.length = n) :
    ∃ value, dotproduct n a b = some value := by
  subst left
  have second : b = List.ofFn fun i : Fin a.length => b.get (i.cast right.symm) := by
    refine List.ext_getElem ?_ fun i _ _ => ?_
    · rw [List.length_ofFn, right]
    · simp
  have sum := dotproduct_ofFn a.get fun i : Fin a.length => b.get (i.cast right.symm)
  rw [List.ofFn_get, ← second] at sum
  exact ⟨_, sum⟩

end

section

variable {K : Type*} [Ring K] {n : Nat} (a b : Fin n → K)

theorem sum_term_range : ∑ i ∈ Finset.range n, term a b i = ∑ i, a i * b i := by
  rw [Finset.sum_range]
  exact Finset.sum_congr rfl fun i _ => term_fin a b i

theorem sum_term_passed :
    ∑ i ∈ Finset.Ico (visited n) n, term a b i = ∑ i : Fin n with visited n ≤ i.val, a i * b i := by
  have passed : Finset.Ico (visited n) n = (Finset.range n).filter (visited n ≤ ·) := by
    ext i
    simp [and_comm]
  rw [passed, Finset.sum_filter, Finset.sum_range, Finset.sum_filter]
  exact Finset.sum_congr rfl fun i _ => by rw [term_fin]

/-- The result is the dot product where the elements passed over contribute nothing. -/
theorem dotproduct_eq_iff :
    dotproduct n (List.ofFn a) (List.ofFn b) = some (∑ i, a i * b i) ↔
      ∑ i : Fin n with visited n ≤ i.val, a i * b i = 0 := by
  rw [dotproduct_ofFn, Option.some_inj, ← sum_term_range, ← sum_term_passed,
    ← Finset.sum_range_add_sum_Ico (term a b) (visited_le n), left_eq_add]

theorem visited_of_ones [CharZero K]
    (exact_ones : dotproduct n (List.ofFn fun _ : Fin n => (1 : K))
      (List.ofFn fun _ : Fin n => (1 : K)) = some (∑ _i : Fin n, (1 : K) * 1)) :
    visited n = n := by
  have cancelled := (dotproduct_eq_iff _ _).mp exact_ones
  simp only [mul_one, Finset.sum_const, nsmul_eq_mul, Nat.cast_eq_zero,
    Finset.card_eq_zero, Finset.filter_eq_empty_iff] at cancelled
  by_contra changed
  have short : visited n < n := lt_of_le_of_ne (visited_le n) changed
  exact cancelled (Finset.mem_univ ⟨visited n, short⟩) le_rfl

end

/-- The unrolled product is the dot product of two vectors exactly when the products of the
elements it passes over cancel; it passes over none exactly when they have fewer than eight. -/
theorem dotproduct_exact_iff (n : Nat) :
    ((∀ a b : Fin n → ℚ, dotproduct n (List.ofFn a) (List.ofFn b) = some (∑ i, a i * b i)) ↔
      n < 8) ∧
    ∀ a b : Fin n → ℚ, dotproduct n (List.ofFn a) (List.ofFn b) = some (∑ i, a i * b i) ↔
      ∑ i : Fin n with visited n ≤ i.val, a i * b i = 0 := by
  refine ⟨⟨fun always => ?_, fun few a b => ?_⟩, fun a b => dotproduct_eq_iff a b⟩
  · exact (visited_eq_iff n).mp (visited_of_ones (always _ _))
  · refine (dotproduct_eq_iff a b).mpr ?_
    rw [← sum_term_passed, (visited_eq_iff n).mpr few, Finset.Ico_self, Finset.sum_empty]

/-- Two vectors of eight ones: the second four are passed over. -/
theorem dotproduct_of_eight :
    ¬ ∀ (n : Nat) (a b : Fin n → ℚ),
      dotproduct n (List.ofFn a) (List.ofFn b) = some (∑ i, a i * b i) := by
  intro always
  have eight := always 8 (fun _ => 1) (fun _ => 1)
  have four : visited 8 = 8 := visited_of_ones eight
  exact absurd four (by decide)

end RlAqs.Vector
