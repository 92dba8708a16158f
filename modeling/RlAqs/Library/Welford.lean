import RlAqs.Library.Sums
import Mathlib.Algebra.BigOperators.Group.List.Basic
import Mathlib.Algebra.Field.Basic
import Mathlib.Data.List.Induction
import Mathlib.Data.Nat.Cast.Basic
import Mathlib.Tactic.FieldSimp
import Mathlib.Tactic.LinearCombination
import Mathlib.Tactic.Ring

/-!
Mean and sum of squared deviations of a list, and how one more value changes them.
-/

namespace Welford

theorem foldl_keeps {State Value : Type*} {next : State → Value → State}
    {Keeps : State → List Value → Prop} {start : State} {limit : Nat}
    (first : ∀ x, Keeps (next start x) [x])
    (later : ∀ {state values}, Keeps state values → values ≠ [] → values.length + 1 < limit →
      ∀ x, Keeps (next state x) (values ++ [x]))
    {values : List Value} (some_value : values ≠ []) (bound : values.length < limit) :
    Keeps (values.foldl next start) values := by
  induction values using List.reverseRecOn with
  | nil => exact absurd rfl some_value
  | append_singleton values x ih =>
      rw [List.length_append, List.length_singleton] at bound
      rw [List.foldl_append, List.foldl_cons, List.foldl_nil]
      by_cases none_before : values = []
      · subst none_before
        exact first x
      · exact later (ih none_before (by omega)) none_before bound x

variable {K : Type*} [Field K]

def mean (values : List K) : K := values.sum / values.length

def ssd (values : List K) (level : K) : K := (values.map fun x => (x - level) ^ 2).sum

theorem ssd_shift (values : List K) (level other : K) :
    ssd values other = ssd values level +
      2 * (level - other) * (values.map fun x => x - level).sum +
        values.length * (level - other) ^ 2 := by
  unfold ssd
  induction values with
  | nil => simp
  | cons x rest ih =>
      simp only [List.map_cons, List.sum_cons, List.length_cons, ih]
      push_cast
      ring

theorem ssd_append (values : List K) (x level : K) :
    ssd (values ++ [x]) level = ssd values level + (x - level) ^ 2 := by
  simp [ssd]

variable [CharZero K]

theorem length_mul_mean (values : List K) : values.length * mean values = values.sum := by
  cases values with
  | nil => simp
  | cons x rest =>
      have length : ((x :: rest).length : K) ≠ 0 := by
        rw [List.length_cons]
        exact Nat.cast_ne_zero.mpr (Nat.succ_ne_zero rest.length)
      rw [mean, mul_div_cancel₀ _ length]

theorem sum_sub_mean (values : List K) : (values.map fun x => x - mean values).sum = 0 := by
  rw [Sums.sum_sub, length_mul_mean, sub_self]

theorem mean_append (values : List K) (x : K) :
    mean (values ++ [x]) = mean values + (x - mean values) / (values.length + 1 : Nat) := by
  have length : ((values.length + 1 : Nat) : K) ≠ 0 := Nat.cast_ne_zero.mpr (Nat.succ_ne_zero _)
  have sum := length_mul_mean values
  have sum' := length_mul_mean (values ++ [x])
  rw [List.length_append, List.length_singleton, List.sum_append, List.sum_singleton] at sum'
  rw [← mul_right_inj' length, sum', mul_add, mul_div_cancel₀ _ length, ← sum]
  push_cast
  ring

/-- The product of the deviations from the old and the new mean is what the sum gains. -/
theorem ssd_mean_append (values : List K) (x : K) :
    ssd (values ++ [x]) (mean (values ++ [x])) =
      ssd values (mean values) + (x - mean values) * (x - mean (values ++ [x])) := by
  have length : ((values.length + 1 : Nat) : K) ≠ 0 := Nat.cast_ne_zero.mpr (Nat.succ_ne_zero _)
  rw [ssd_append, ssd_shift values (mean values), sum_sub_mean, mul_zero, add_zero, mean_append]
  push_cast at length ⊢
  field_simp
  ring

theorem mean_kept_iff (sum value : K) {count : Nat} (positive : count ≠ 0) :
    sum / count = (sum + value) / (count + 1 : Nat) ↔ value * count = sum := by
  have nonzero : (count : K) ≠ 0 := Nat.cast_ne_zero.mpr positive
  have more : ((count + 1 : Nat) : K) ≠ 0 := Nat.cast_ne_zero.mpr (Nat.succ_ne_zero count)
  rw [div_eq_div_iff nonzero more]
  push_cast
  constructor
  · intro same
    linear_combination -same
  · intro same
    linear_combination -same

end Welford
