import Mathlib.Algebra.BigOperators.Field
import Mathlib.Algebra.Order.BigOperators.Group.Finset
import Mathlib.Algebra.Order.Field.Basic
import Mathlib.Data.Finset.Max
import Mathlib.Tactic.Linarith
import Mathlib.Tactic.Ring

/-!
The point of the simplex of total `z` that is closest to a vector: every coordinate is lowered
by one threshold and cut off at zero.
-/

namespace Threshold

variable {ι K : Type*} [Field K] [LinearOrder K] [IsStrictOrderedRing K]
variable {s : Finset ι} {v : ι → K} {z theta : K}

def surplus (s : Finset ι) (v : ι → K) (theta : K) : K := ∑ i ∈ s, max (v i - theta) 0

theorem sum_le_surplus {taken : Finset ι} (subset : taken ⊆ s) (theta : K) :
    ∑ i ∈ taken, (v i - theta) ≤ surplus s v theta :=
  calc ∑ i ∈ taken, (v i - theta)
      ≤ ∑ i ∈ taken, max (v i - theta) 0 := Finset.sum_le_sum fun _ _ => le_max_left _ _
    _ ≤ surplus s v theta :=
        Finset.sum_le_sum_of_subset_of_nonneg subset fun _ _ _ => le_max_right _ _

theorem sum_eq_surplus {taken : Finset ι} (subset : taken ⊆ s)
    (above : ∀ i ∈ taken, theta ≤ v i) (below : ∀ i ∈ s, i ∉ taken → v i ≤ theta) :
    ∑ i ∈ taken, (v i - theta) = surplus s v theta := by
  rw [surplus, ← Finset.sum_subset subset]
  · apply Finset.sum_congr rfl
    intro i member
    rw [max_eq_left (sub_nonneg.mpr (above i member))]
  · intro i member out
    exact max_eq_right (sub_nonpos.mpr (below i member out))

/-- The set with the largest threshold of its own is the set above that threshold. -/
theorem exists_threshold (nonempty : s.Nonempty) (positive : 0 < z) :
    ∃ theta, surplus s v theta = z := by
  classical
  have some_set : (s.powerset.filter Finset.Nonempty).Nonempty :=
    ⟨s, Finset.mem_filter.mpr ⟨Finset.mem_powerset_self s, nonempty⟩⟩
  obtain ⟨best, member, largest⟩ := Finset.exists_max_image (s.powerset.filter Finset.Nonempty)
    (fun taken => (∑ i ∈ taken, v i - z) / taken.card) some_set
  obtain ⟨inside, some_best⟩ := Finset.mem_filter.mp member
  have subset := Finset.mem_powerset.mp inside
  generalize level : (∑ i ∈ best, v i - z) / (best.card : K) = theta at largest
  have spread : ∀ taken : Finset ι,
      ∑ i ∈ taken, (v i - theta) = ∑ i ∈ taken, v i - taken.card * theta := by
    intro taken
    rw [Finset.sum_sub_distrib, Finset.sum_const, nsmul_eq_mul]
  have exact_sum : ∑ i ∈ best, (v i - theta) = z := by
    have card : (best.card : K) ≠ 0 := by
      exact_mod_cast some_best.card_pos.ne'
    rw [spread, ← level, mul_div_cancel₀ _ card]
    ring
  have bounded : ∀ taken : Finset ι, taken ⊆ s → taken.Nonempty →
      ∑ i ∈ taken, (v i - theta) ≤ z := by
    intro taken inside some_taken
    have card : (0 : K) < taken.card := by
      exact_mod_cast some_taken.card_pos
    have most := largest taken (Finset.mem_filter.mpr ⟨Finset.mem_powerset.mpr inside, some_taken⟩)
    rw [div_le_iff₀ card] at most
    rw [spread]
    linarith
  refine ⟨theta, ?_⟩
  rw [← sum_eq_surplus subset, exact_sum]
  · intro i taken
    have without := Finset.add_sum_erase best (fun i => v i - theta) taken
    rw [exact_sum] at without
    rcases (best.erase i).eq_empty_or_nonempty with alone | others
    · rw [alone, Finset.sum_empty] at without
      linarith
    · have most := bounded (best.erase i) ((Finset.erase_subset i best).trans subset) others
      linarith
  · intro i member out
    have more := bounded (insert i best) (Finset.insert_subset member subset)
      (Finset.insert_nonempty i best)
    rw [Finset.sum_insert out, exact_sum] at more
    linarith

theorem surplus_lt {lower : K} (less : lower < theta) (positive : 0 < surplus s v theta) :
    surplus s v theta < surplus s v lower := by
  have some_above : ∃ i ∈ s, theta < v i := by
    by_contra none
    have zero : surplus s v theta = 0 := by
      apply Finset.sum_eq_zero
      intro i member
      apply max_eq_right
      rw [sub_nonpos]
      by_contra more
      exact none ⟨i, member, not_le.mp more⟩
    exact absurd positive (by rw [zero]; exact lt_irrefl 0)
  obtain ⟨top, member, above⟩ := some_above
  apply Finset.sum_lt_sum
  · intro i _
    exact max_le_max (by linarith) (le_refl 0)
  · refine ⟨top, member, ?_⟩
    rw [max_eq_left (by linarith), max_eq_left (by linarith)]
    linarith

theorem threshold_unique {other : K} (positive : 0 < z) (first : surplus s v theta = z)
    (second : surplus s v other = z) : theta = other := by
  rcases lt_trichotomy theta other with less | same | more
  · have strict := surplus_lt less (by rw [second]; exact positive)
    rw [first, second] at strict
    exact absurd strict (lt_irrefl z)
  · exact same
  · have strict := surplus_lt more (by rw [first]; exact positive)
    rw [first, second] at strict
    exact absurd strict (lt_irrefl z)

theorem closest (sum : surplus s v theta = z) {point : ι → K} (nonneg : ∀ i ∈ s, 0 ≤ point i)
    (total : ∑ i ∈ s, point i = z) :
    ∑ i ∈ s, (max (v i - theta) 0 - v i) ^ 2 + ∑ i ∈ s, (point i - max (v i - theta) 0) ^ 2 ≤
      ∑ i ∈ s, (point i - v i) ^ 2 := by
  have each : ∀ i ∈ s, (max (v i - theta) 0 - v i) ^ 2 + (point i - max (v i - theta) 0) ^ 2 -
      2 * theta * (point i - max (v i - theta) 0) ≤ (point i - v i) ^ 2 := by
    intro i member
    rcases le_total theta (v i) with above | below
    · rw [max_eq_left (sub_nonneg.mpr above)]
      linarith [sq_nonneg (point i - v i)]
    · rw [max_eq_right (sub_nonpos.mpr below)]
      nlinarith [mul_nonneg (nonneg i member) (sub_nonneg.mpr below)]
  have all := Finset.sum_le_sum each
  rw [Finset.sum_sub_distrib, Finset.sum_add_distrib, ← Finset.mul_sum, Finset.sum_sub_distrib,
    total] at all
  rw [surplus] at sum
  rw [sum, sub_self, mul_zero, sub_zero] at all
  exact all

end Threshold
