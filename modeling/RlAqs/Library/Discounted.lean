import Mathlib.Analysis.Convex.Basic
import Mathlib.Tactic.FieldSimp
import Mathlib.Tactic.Linarith

/-!
Estimates that are moved part of the way towards a target, and targets that add a discounted
estimate to a bounded reward.
-/

namespace Discounted

variable {K : Type*} [Field K] [LinearOrder K] [IsStrictOrderedRing K]
  {bound discount reward value : K}

theorem toward_mem {low high x y t : K} (inside : x ∈ Set.Icc low high)
    (target : y ∈ Set.Icc low high) (part : t ∈ Set.Icc 0 1) :
    x + t * (y - x) ∈ Set.Icc low high :=
  (convex_Icc low high).add_smul_sub_mem inside target part

theorem mean_mem {low high x y : K} (inside : x ∈ Set.Icc low high)
    (target : y ∈ Set.Icc low high) {count : Nat} (counted : 1 ≤ count) :
    x + (y - x) / count ∈ Set.Icc low high := by
  have one : (1 : K) ≤ count := Nat.one_le_cast.mpr counted
  rw [div_eq_inv_mul]
  exact toward_mem inside target
    ⟨inv_nonneg.mpr (Nat.cast_nonneg count), inv_le_one_of_one_le₀ one⟩

/-- What rewards of one size add up to, each discounted by those before it. -/
def horizon (bound discount : K) : K := bound / (1 - discount)

theorem horizon_eq (below : discount < 1) :
    bound + discount * horizon bound discount = horizon bound discount := by
  have positive : 0 < 1 - discount := by linarith
  unfold horizon
  field_simp
  ring

theorem bound_le_horizon (size : 0 ≤ bound) (start : 0 ≤ discount) (below : discount < 1) :
    bound ≤ horizon bound discount := by
  have positive : 0 < 1 - discount := by linarith
  rw [horizon, le_div_iff₀ positive]
  exact mul_le_of_le_one_right size (by linarith)

theorem backup_mem (start : 0 ≤ discount) (below : discount < 1)
    (rewarded : reward ∈ Set.Icc (-bound) 0)
    (estimated : value ∈ Set.Icc (-horizon bound discount) 0) :
    reward + discount * value ∈ Set.Icc (-horizon bound discount) 0 := by
  have fixed : bound + discount * horizon bound discount = horizon bound discount := horizon_eq below
  have low := mul_le_mul_of_nonneg_left estimated.1 start
  have high := mul_nonpos_of_nonneg_of_nonpos start estimated.2
  rw [mul_neg] at low
  exact ⟨by linarith [rewarded.1], by linarith [rewarded.2]⟩

end Discounted
