import RlAqs.Learner.SimplexCore
import RlAqs.Library.Sums
import Mathlib.Algebra.BigOperators.Fin
import Mathlib.Algebra.Order.BigOperators.Group.Finset
import Mathlib.Data.List.GetD
import Mathlib.Tactic.Linarith
import Mathlib.Tactic.Ring

/-!
What the projection guarantees whichever pivots are drawn: it divides by a count of at least
one, and what it leaves is nonnegative and sums to at least `z`.
-/

namespace RlAqs

namespace Simplex

def total (vec : List ℚ) (chosen : List Nat) : ℚ :=
  (chosen.map fun index => vec.getD index 0).sum

/-- `s` and `rho` are the sum and the number of the elements that were taken out of `U`. -/
structure Taken (vec : List ℚ) (u chosen : List Nat) (s rho : ℚ) : Prop where
  simple : (chosen ++ u).Nodup
  inside : ∀ index ∈ chosen ++ u, index < vec.length
  sum : s = total vec chosen
  count : rho = chosen.length
  some_left : chosen ≠ [] ∨ u ≠ []

theorem getD_mem {u : List Nat} (some_left : u ≠ []) (draw : Nat) :
    u.getD (draw % u.length) 0 ∈ u := by
  have bound : draw % u.length < u.length := Nat.mod_lt _ (List.length_pos_iff.mpr some_left)
  rw [List.getD_eq_getElem u 0 bound]
  exact List.getElem_mem bound

theorem filter_split_perm (u : List Nat) (pivot : Nat) :
    ((u.filter fun index => pivot ≤ index) ++ u.filter fun index => index < pivot).Perm u := by
  have split := List.filter_append_perm (fun index => decide (pivot ≤ index)) u
  have same : (u.filter fun index => !decide (pivot ≤ index)) =
      u.filter fun index => index < pivot := by
    apply List.filter_congr
    intro index _
    by_cases below : index < pivot
    · simp [below]
    · simp [below, Nat.not_lt.mp below]
  rwa [same] at split

theorem below_length_lt {u : List Nat} {pivot : Nat} (member : pivot ∈ u) :
    (u.filter fun index => index < pivot).length < u.length :=
  List.length_filter_lt_length_iff_exists.mpr ⟨pivot, member, by simp⟩

theorem Taken.accept {vec : List ℚ} {u chosen : List Nat} {s rho : ℚ} {pivot : Nat}
    (taken : Taken vec u chosen s rho) (member : pivot ∈ u) :
    let g := u.filter fun index => pivot ≤ index
    Taken vec (u.filter fun index => index < pivot) (chosen ++ g) (s + total vec g)
      (rho + g.length) := by
  intro g
  have perm : ((chosen ++ g) ++ u.filter fun index => index < pivot).Perm (chosen ++ u) := by
    rw [List.append_assoc]
    exact (filter_split_perm u pivot).append_left chosen
  have kept : pivot ∈ g := by
    simpa [g] using member
  refine ⟨perm.nodup_iff.mpr taken.simple, ?_, ?_, ?_, ?_⟩
  · intro index listed
    exact taken.inside index (perm.mem_iff.mp listed)
  · rw [taken.sum]
    simp [total]
  · rw [taken.count]
    simp
  · left
    intro empty
    rw [(List.append_eq_nil_iff.mp empty).2] at kept
    cases kept

/-! The loop. -/

/-- The sum the test compares with `z`, over the elements taken and those from the pivot on. -/
def gap (vec : List ℚ) (u chosen : List Nat) (pivot : Nat) : ℚ :=
  ((chosen ++ u.filter fun index => pivot ≤ index).map fun index =>
    vec.getD index 0 - vec.getD pivot 0).sum

theorem sum_sub_const (vec : List ℚ) (chosen : List Nat) (level : ℚ) :
    (chosen.map fun index => vec.getD index 0 - level).sum =
      total vec chosen - chosen.length * level :=
  Sums.sum_map_sub chosen _ level

theorem Taken.gap_eq {vec : List ℚ} {u chosen : List Nat} {s rho : ℚ}
    (taken : Taken vec u chosen s rho) (pivot : Nat) :
    let g := u.filter fun index => pivot ≤ index
    (s + total vec g) - (rho + (g.length : ℚ)) * vec.getD pivot 0 = gap vec u chosen pivot := by
  intro g
  rw [gap, sum_sub_const, taken.sum, taken.count]
  simp only [total, List.map_append, List.sum_append, List.length_append, Nat.cast_add]
  rfl

/-- With nothing taken yet the last index passes the test: its element cancels out. -/
theorem gap_last (vec : List ℚ) (index : Nat) : gap vec [index] [] index = 0 := by
  simp [gap]

theorem Taken.refuse {vec : List ℚ} {z : ℚ} {u chosen : List Nat} {s rho : ℚ} {pivot : Nat}
    (positive : 0 < z) (taken : Taken vec u chosen s rho) (member : pivot ∈ u)
    (failed : ¬gap vec u chosen pivot < z) : Taken vec (u.erase pivot) chosen s rho := by
  have sublist : (chosen ++ u.erase pivot).Sublist (chosen ++ u) :=
    List.erase_sublist.append_left chosen
  refine ⟨taken.simple.sublist sublist, fun index listed => taken.inside index
    (sublist.subset listed), taken.sum, taken.count, ?_⟩
  by_contra empty
  simp only [not_or, Decidable.not_not] at empty
  obtain ⟨rfl, single⟩ := empty
  have length := List.length_erase_of_mem member
  rw [single, List.length_nil] at length
  match shape : u with
  | [] => cases member
  | [index] =>
      rw [List.mem_singleton.mp member, gap_last] at failed
      exact failed positive
  | _ :: _ :: _ => simp at length

theorem erase_pivot {u : List Nat} (simple : u.Nodup) {k : Nat} (bound : k < u.length) :
    u.eraseIdx k = u.erase (u.getD k 0) := by
  rw [List.getD_eq_getElem u 0 bound]
  exact (simple.erase_getElem k bound).symm

/-- The loop ends, and keeps what taking a group and refusing a pivot both keep. -/
theorem pivotLoop_spec {vec : List ℚ} {z : ℚ} (positive : 0 < z)
    (invariant : List Nat → List Nat → Prop)
    (accepts : ∀ u chosen s rho pivot, Taken vec u chosen s rho → invariant u chosen →
      pivot ∈ u → gap vec u chosen pivot < z →
        invariant (u.filter fun index => index < pivot)
          (chosen ++ u.filter fun index => pivot ≤ index))
    (refuses : ∀ u chosen s rho pivot, Taken vec u chosen s rho → invariant u chosen →
      pivot ∈ u → ¬gap vec u chosen pivot < z → invariant (u.erase pivot) chosen)
    {fuel : Nat} (draws : Nat → Nat) {u chosen : List Nat} {s rho : ℚ} (enough : u.length ≤ fuel)
    (taken : Taken vec u chosen s rho) (holds : invariant u chosen) :
    ∃ chosen' s' rho', pivotLoop vec z fuel draws u s rho = some (s', rho') ∧
      Taken vec [] chosen' s' rho' ∧ invariant [] chosen' := by
  induction fuel generalizing draws u chosen s rho with
  | zero =>
      have empty := List.length_eq_zero_iff.mp (Nat.le_zero.mp enough)
      subst empty
      exact ⟨chosen, s, rho, rfl, taken, holds⟩
  | succ fuel ih =>
      cases u with
      | nil => exact ⟨chosen, s, rho, by simp [pivotLoop], taken, holds⟩
      | cons first rest =>
          have member := getD_mem (List.cons_ne_nil first rest) (draws 0)
          have bound : draws 0 % (first :: rest).length < (first :: rest).length :=
            Nat.mod_lt _ (by simp)
          have test := taken.gap_eq ((first :: rest).getD (draws 0 % (first :: rest).length) 0)
          simp only [total] at test
          simp only [pivotLoop]
          rw [test]
          split
          · rename_i passed
            have fewer := below_length_lt member
            exact ih _ (by omega) (taken.accept member)
              (accepts _ _ _ _ _ taken holds member passed)
          · rename_i failed
            have simple : (first :: rest).Nodup := (List.nodup_append.mp taken.simple).2.1
            have fewer := List.length_eraseIdx_of_lt bound
            rw [erase_pivot simple bound] at fewer ⊢
            exact ih _ (by omega) (taken.refuse positive member failed)
              (refuses _ _ _ _ _ taken holds member failed)

theorem taken_start {vec : List ℚ} (some_element : vec ≠ []) :
    Taken vec (List.range vec.length) [] 0 0 := by
  refine ⟨List.nodup_range, ?_, rfl, by simp, ?_⟩
  · intro index listed
    exact List.mem_range.mp listed
  · right
    intro empty
    exact some_element (List.length_eq_zero_iff.mp (List.range_eq_nil.mp empty))

theorem sum_map_eq_range (vec : List ℚ) (value : ℚ → ℚ) :
    (vec.map value).sum = ∑ index ∈ Finset.range vec.length, value (vec.getD index 0) := by
  have listed : vec.map value =
      (List.range vec.length).map fun index => value (vec.getD index 0) := by
    apply List.ext_getElem
    · simp
    · intro index left right
      simp only [List.length_map] at left
      simp only [List.getElem_map, List.getElem_range, List.getD_eq_getElem vec 0 left]
  rw [listed, ← List.sum_toFinset _ List.nodup_range, List.toFinset_range]

theorem taken_sum {chosen : List ℚ} {z theta s rho : ℚ} (length : rho = chosen.length)
    (sum : s = chosen.sum) (balance : rho * theta = s - z) :
    (chosen.map fun x => x - theta).sum = z := by
  have spread : (chosen.map fun x => x - theta).sum = chosen.sum - chosen.length * theta := by
    clear length sum balance
    induction chosen with
    | nil => simp
    | cons x rest ih =>
        simp only [List.map_cons, List.sum_cons, ih, List.length_cons, Nat.cast_add, Nat.cast_one]
        ring
  rw [spread, ← length, balance, ← sum]
  ring

theorem projectionDuchi_spec {vec : List ℚ} {z : ℚ} (positive : 0 < z) (some_element : vec ≠ [])
    (short : vec.length < 65536) (draws : Nat → Nat) :
    ∃ s rho projected,
      pivotLoop vec z vec.length draws (List.range vec.length) 0 0 = some (s, rho) ∧ 1 ≤ rho ∧
      projectionDuchi vec z 0 draws = some projected ∧ projected.length = vec.length ∧
      (∀ x ∈ projected, 0 ≤ x) ∧ z ≤ projected.sum := by
  obtain ⟨chosen, s, rho, looped, taken, _⟩ := pivotLoop_spec positive (fun _ _ => True)
    (fun _ _ _ _ _ _ _ _ _ => trivial) (fun _ _ _ _ _ _ _ _ _ => trivial) draws
    List.length_range.le (taken_start some_element) trivial
  have least : 1 ≤ rho := by
    have some_taken := taken.some_left.resolve_right (by simp)
    rw [taken.count]
    exact_mod_cast List.length_pos_iff.mpr some_taken
  have divisor : rho ≠ 0 := by linarith
  have once : chosen.Nodup := by simpa using taken.simple
  have subset : chosen.toFinset ⊆ Finset.range vec.length := by
    intro index listed
    exact Finset.mem_range.mpr (taken.inside index (by simpa using listed))
  refine ⟨s, rho, vec.map fun x => max (x - (s - z) / rho) 0, looped, least, ?_, ?_, ?_, ?_⟩
  · simp [projectionDuchi, indices, short, looped, divide, divisor]
  · simp
  · intro x member
    obtain ⟨y, _, rfl⟩ := List.mem_map.mp member
    exact le_max_right _ _
  · have length : rho = (chosen.map fun index => vec.getD index 0).length := by
      rw [taken.count, List.length_map]
    have exact_sum := taken_sum length taken.sum (mul_div_cancel₀ (s - z) divisor)
    rw [List.map_map] at exact_sum
    rw [sum_map_eq_range]
    calc z = (chosen.map fun index => vec.getD index 0 - (s - z) / rho).sum := exact_sum.symm
      _ = ∑ index ∈ chosen.toFinset, (vec.getD index 0 - (s - z) / rho) :=
          (List.sum_toFinset _ once).symm
      _ ≤ ∑ index ∈ chosen.toFinset, max (vec.getD index 0 - (s - z) / rho) 0 :=
          Finset.sum_le_sum fun _ _ => le_max_left _ _
      _ ≤ ∑ index ∈ Finset.range vec.length, max (vec.getD index 0 - (s - z) / rho) 0 :=
          Finset.sum_le_sum_of_subset_of_nonneg subset fun _ _ _ => le_max_right _ _

end Simplex

end RlAqs
