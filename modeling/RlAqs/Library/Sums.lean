import Mathlib.Algebra.BigOperators.Fin
import Mathlib.Algebra.Order.BigOperators.Group.Finset
import Mathlib.Tactic.Ring

/-! Sums whose terms change: in one place, or all by one amount. -/

namespace Sums

theorem sum_map_sub {α K : Type*} [CommRing K] (terms : List α) (value : α → K) (level : K) :
    (terms.map fun term => value term - level).sum =
      (terms.map value).sum - terms.length * level := by
  induction terms with
  | nil => simp
  | cons term rest ih =>
      rw [List.map_cons, List.sum_cons, ih, List.map_cons, List.sum_cons, List.length_cons]
      push_cast
      ring

theorem sum_sub {K : Type*} [CommRing K] (values : List K) (level : K) :
    (values.map fun x => x - level).sum = values.sum - values.length * level := by
  rw [sum_map_sub values (fun x => x), List.map_id']

theorem zero_of_nonpos {K : Type*} [AddCommGroup K] [PartialOrder K] [IsOrderedAddMonoid K]
    {values : List K} (nonpos : ∀ x ∈ values, x ≤ 0) (sum : 0 ≤ values.sum) :
    ∀ x ∈ values, x = 0 := by
  have negated : ∀ y ∈ values.map fun x => -x, 0 ≤ y := by
    rintro y member
    obtain ⟨x, inside, rfl⟩ := List.mem_map.mp member
    exact neg_nonneg.mpr (nonpos x inside)
  have zero : (values.map fun x => -x).sum = 0 := by
    refine le_antisymm ?_ (List.sum_nonneg negated)
    rw [← List.sum_neg]
    exact neg_nonpos.mpr sum
  intro x member
  exact neg_eq_zero.mp
    (List.all_zero_of_le_zero_le_of_sum_eq_zero negated zero (List.mem_map_of_mem member))

theorem sum_range_changed {count index : Nat} (before after : Nat → Nat) (bound : index < count)
    (others : ∀ query ≠ index, after query = before query) :
    (∑ query ∈ Finset.range count, after query) + before index =
      (∑ query ∈ Finset.range count, before query) + after index := by
  have member : index ∈ Finset.range count := Finset.mem_range.mpr bound
  rw [← Finset.add_sum_erase _ after member, ← Finset.add_sum_erase _ before member]
  have rest : ∑ query ∈ (Finset.range count).erase index, after query =
      ∑ query ∈ (Finset.range count).erase index, before query := by
    apply Finset.sum_congr rfl
    intro query inside
    exact others query (Finset.ne_of_mem_erase inside)
  rw [rest]
  omega

theorem term_le_sum {count index : Nat} (terms : Nat → Nat) (bound : index < count) :
    terms index ≤ ∑ query ∈ Finset.range count, terms query :=
  Finset.single_le_sum (fun _ _ => Nat.zero_le _) (Finset.mem_range.mpr bound)

theorem sum_take_descending {K : Type*} [AddCommGroup K] [LinearOrder K] [IsOrderedAddMonoid K]
    {values : List K} (descending : values.Pairwise fun first second => second ≤ first)
    {i j : Nat} (order : i ≤ j) :
    (values.take i).sum ≤ (values.take j).sum ∨ values.sum ≤ (values.take j).sum := by
  have middle : (values.take j).sum = (values.take i).sum + ((values.take j).drop i).sum := by
    have first : values.take i = (values.take j).take i := by
      rw [List.take_take, min_eq_left order]
    rw [first, ← List.sum_append, List.take_append_drop]
  have ends : values.sum = (values.take j).sum + (values.drop j).sum := by
    rw [← List.sum_append, List.take_append_drop]
  by_cases rising : ∀ x ∈ (values.take j).drop i, 0 ≤ x
  · left
    rw [middle]
    exact le_add_of_nonneg_right (List.sum_nonneg rising)
  · right
    obtain ⟨x, member, negative⟩ : ∃ x ∈ (values.take j).drop i, x < 0 := by
      simpa only [not_forall, not_le, exists_prop] using rising
    have apart := List.pairwise_append.mp ((List.take_append_drop j values).symm ▸ descending)
    have falling := List.sum_le_card_nsmul (values.drop j) 0 fun y later =>
      (apart.2.2 x (List.mem_of_mem_drop member) y later).trans negative.le
    rw [ends]
    exact add_le_of_nonpos_right (falling.trans_eq (nsmul_zero _))

end Sums
