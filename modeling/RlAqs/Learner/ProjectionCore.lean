import RlAqs.Learner.SimplexChecks
import RlAqs.Library.Threshold

/-!
What the projection is meant to compute, the point of the simplex closest to the vector, and
when the loop over `U` finds it. The threshold of a vector is told by the `excess` over an
element: less than `z` for the elements above it, more than `z` for those below.
-/

namespace RlAqs

namespace Simplex

def distance (vec point : List ℚ) : ℚ :=
  ((vec.zip point).map fun pair => (pair.2 - pair.1) ^ 2).sum

/-- `point` is nonnegative and sums to `z`; every other such point is farther from `vec`. -/
structure IsProjection (vec point : List ℚ) (z : ℚ) : Prop where
  length : point.length = vec.length
  nonneg : ∀ x ∈ point, 0 ≤ x
  sum : point.sum = z
  closest : ∀ other : List ℚ, other.length = vec.length → (∀ x ∈ other, 0 ≤ x) →
    other.sum = z → other ≠ point → distance vec point < distance vec other

def excess (vec : List ℚ) (index : Nat) : ℚ :=
  (vec.map fun x => max (x - vec.getD index 0) 0).sum

def Low (vec : List ℚ) (z : ℚ) (index : Nat) : Prop := z < excess vec index

def Level (vec : List ℚ) (z : ℚ) (index : Nat) : Prop := excess vec index = z

def High (vec : List ℚ) (z : ℚ) (index : Nat) : Prop := excess vec index < z

/-- The element is still counted when `pivot` is drawn, whatever was refused before: it is not
a larger low one, nor one at the threshold that stands before all above it. -/
def Kept (vec : List ℚ) (z : ℚ) (pivot index : Nat) : Prop :=
  ¬(Low vec z index ∧ vec.getD pivot 0 < vec.getD index 0) ∧
    ¬(Level vec z index ∧ ∀ high < vec.length, High vec z high → index < high)

instance (vec : List ℚ) (z : ℚ) (index : Nat) : Decidable (Low vec z index) :=
  inferInstanceAs (Decidable (_ < _))

instance (vec : List ℚ) (z : ℚ) (index : Nat) : Decidable (Level vec z index) :=
  inferInstanceAs (Decidable (_ = _))

instance (vec : List ℚ) (z : ℚ) (index : Nat) : Decidable (High vec z index) :=
  inferInstanceAs (Decidable (_ < _))

instance (vec : List ℚ) (z : ℚ) (pivot index : Nat) : Decidable (Kept vec z pivot index) :=
  inferInstanceAs (Decidable (_ ∧ _))

/-- The low elements stand before all others, and each is refused as a pivot at all times. -/
structure PivotSafe (vec : List ℚ) (z : ℚ) : Prop where
  short : vec.length < 65536
  split : ∀ index < vec.length, Low vec z index → ∀ earlier < index, Low vec z earlier
  refused : ∀ pivot < vec.length, Low vec z pivot →
    z ≤ (((List.range vec.length).filter fun index => pivot ≤ index ∧ Kept vec z pivot index).map
      fun index => vec.getD index 0 - vec.getD pivot 0).sum

/-! The threshold. -/

theorem excess_eq_surplus (vec : List ℚ) (index : Nat) :
    excess vec index = Threshold.surplus (Finset.range vec.length) (fun i => vec.getD i 0)
      (vec.getD index 0) :=
  sum_map_eq_range vec fun x => max (x - vec.getD index 0) 0

structure HasThreshold (vec : List ℚ) (z theta : ℚ) : Prop where
  positive : 0 < z
  sum : Threshold.surplus (Finset.range vec.length) (fun i => vec.getD i 0) theta = z

theorem exists_hasThreshold {vec : List ℚ} {z : ℚ} (some_element : vec ≠ []) (positive : 0 < z) :
    ∃ theta, HasThreshold vec z theta := by
  have nonempty : (Finset.range vec.length).Nonempty :=
    ⟨0, Finset.mem_range.mpr (List.length_pos_iff.mpr some_element)⟩
  obtain ⟨theta, sum⟩ := Threshold.exists_threshold nonempty positive
  exact ⟨theta, positive, sum⟩

section Sides

variable {vec : List ℚ} {z theta : ℚ} (threshold : HasThreshold vec z theta)
include threshold

theorem HasThreshold.low_of_lt {index : Nat} (below : vec.getD index 0 < theta) :
    Low vec z index := by
  have strict := Threshold.surplus_lt below (by rw [threshold.sum]; exact threshold.positive)
  rwa [threshold.sum, ← excess_eq_surplus] at strict

theorem HasThreshold.level_of_eq {index : Nat} (same : vec.getD index 0 = theta) :
    Level vec z index := by
  rw [Level, excess_eq_surplus, same, threshold.sum]

theorem HasThreshold.high_of_gt {index : Nat} (bound : index < vec.length)
    (above : theta < vec.getD index 0) : High vec z index := by
  rw [High, excess_eq_surplus, ← threshold.sum]
  apply Finset.sum_lt_sum
  · intro i _
    exact max_le_max (by linarith) (le_refl 0)
  · refine ⟨index, Finset.mem_range.mpr bound, ?_⟩
    rw [sub_self, max_self, max_eq_left (by linarith)]
    linarith

theorem HasThreshold.low_iff {index : Nat} (bound : index < vec.length) :
    Low vec z index ↔ vec.getD index 0 < theta := by
  constructor
  · intro low
    rcases lt_trichotomy (vec.getD index 0) theta with below | same | above
    · exact below
    · exact absurd (threshold.level_of_eq same) (ne_of_gt low)
    · exact absurd (threshold.high_of_gt bound above) (lt_asymm low)
  · exact threshold.low_of_lt

theorem HasThreshold.high_iff {index : Nat} (bound : index < vec.length) :
    High vec z index ↔ theta < vec.getD index 0 := by
  constructor
  · intro high
    rcases lt_trichotomy (vec.getD index 0) theta with below | same | above
    · exact absurd (threshold.low_of_lt below) (lt_asymm high)
    · exact absurd (threshold.level_of_eq same) (ne_of_lt high)
    · exact above
  · exact threshold.high_of_gt bound

theorem HasThreshold.level_iff {index : Nat} (bound : index < vec.length) :
    Level vec z index ↔ vec.getD index 0 = theta := by
  constructor
  · intro level
    rcases lt_trichotomy (vec.getD index 0) theta with below | same | above
    · exact absurd level (ne_of_gt (threshold.low_of_lt below))
    · exact same
    · exact absurd level (ne_of_lt (threshold.high_of_gt bound above))
  · exact threshold.level_of_eq

end Sides

/-! The projection is the vector cut off at the threshold. -/

def cutOff (vec : List ℚ) (theta : ℚ) : List ℚ := vec.map fun x => max (x - theta) 0

theorem sum_cutOff (vec : List ℚ) (theta : ℚ) :
    (cutOff vec theta).sum =
      Threshold.surplus (Finset.range vec.length) (fun i => vec.getD i 0) theta :=
  sum_map_eq_range vec fun x => max (x - theta) 0

theorem sum_eq_range (vec : List ℚ) :
    vec.sum = ∑ index ∈ Finset.range vec.length, vec.getD index 0 := by
  have listed := sum_map_eq_range vec id
  rwa [List.map_id] at listed

theorem distance_eq_range {vec point : List ℚ} (length : point.length = vec.length) :
    distance vec point =
      ∑ index ∈ Finset.range vec.length, (point.getD index 0 - vec.getD index 0) ^ 2 := by
  have listed : ((vec.zip point).map fun pair => (pair.2 - pair.1) ^ 2) =
      (List.range vec.length).map fun index => (point.getD index 0 - vec.getD index 0) ^ 2 := by
    apply List.ext_getElem
    · simp [length]
    · intro index left right
      have bound : index < vec.length := by simpa using right
      simp only [List.getElem_map, List.getElem_zip, List.getElem_range,
        List.getD_eq_getElem vec 0 bound, List.getD_eq_getElem point 0 (length ▸ bound)]
  rw [distance, listed, ← List.sum_toFinset _ List.nodup_range, List.toFinset_range]

theorem getD_cutOff (vec : List ℚ) (theta : ℚ) {index : Nat} (bound : index < vec.length) :
    (cutOff vec theta).getD index 0 = max (vec.getD index 0 - theta) 0 := by
  have bound' : index < (cutOff vec theta).length := by
    simpa [cutOff] using bound
  rw [List.getD_eq_getElem _ 0 bound', List.getD_eq_getElem _ 0 bound]
  simp [cutOff]

theorem HasThreshold.isProjection {vec : List ℚ} {z theta : ℚ}
    (threshold : HasThreshold vec z theta) : IsProjection vec (cutOff vec theta) z := by
  refine ⟨by simp [cutOff], ?_, (sum_cutOff vec theta).trans threshold.sum, ?_⟩
  · intro x member
    obtain ⟨y, _, rfl⟩ := List.mem_map.mp member
    exact le_max_right _ _
  · intro other length nonneg sum different
    have length' : (cutOff vec theta).length = vec.length := by simp [cutOff]
    have total : ∑ index ∈ Finset.range vec.length, other.getD index 0 = z := by
      rw [← sum, sum_eq_range, length]
    have nonneg' : ∀ index ∈ Finset.range vec.length, 0 ≤ other.getD index 0 := by
      intro index member
      have bound : index < other.length := length ▸ Finset.mem_range.mp member
      rw [List.getD_eq_getElem _ 0 bound]
      exact nonneg _ (List.getElem_mem bound)
    have apart := Threshold.closest threshold.sum nonneg' total
    have gap : 0 < ∑ index ∈ Finset.range vec.length,
        (other.getD index 0 - max (vec.getD index 0 - theta) 0) ^ 2 := by
      have some_gap : ∃ index < vec.length,
          other.getD index 0 ≠ max (vec.getD index 0 - theta) 0 := by
        by_contra none
        simp only [not_exists, not_and, not_not] at none
        apply different
        apply List.ext_getElem (length.trans length'.symm)
        intro index left right
        have bound : index < vec.length := length ▸ left
        have same := none index bound
        rw [← getD_cutOff vec theta bound, List.getD_eq_getElem _ 0 left,
          List.getD_eq_getElem _ 0 right] at same
        exact same
      obtain ⟨index, bound, differs⟩ := some_gap
      apply Finset.sum_pos' (fun _ _ => sq_nonneg _)
      exact ⟨index, Finset.mem_range.mpr bound, by
        have nonzero := sub_ne_zero.mpr differs
        positivity⟩
    rw [distance_eq_range length', distance_eq_range length]
    have same : ∑ index ∈ Finset.range vec.length,
        ((cutOff vec theta).getD index 0 - vec.getD index 0) ^ 2 =
          ∑ index ∈ Finset.range vec.length,
            (max (vec.getD index 0 - theta) 0 - vec.getD index 0) ^ 2 := by
      apply Finset.sum_congr rfl
      intro index member
      rw [getD_cutOff vec theta (Finset.mem_range.mp member)]
    rw [same]
    linarith

theorem IsProjection.unique {vec first second : List ℚ} {z : ℚ}
    (left : IsProjection vec first z) (right : IsProjection vec second z) : first = second := by
  by_contra different
  have closer := left.closest second right.length right.nonneg right.sum (Ne.symm different)
  have farther := right.closest first left.length left.nonneg left.sum different
  exact lt_asymm closer farther

end Simplex

end RlAqs
