import RlAqs.Learner.ListingCore
import RlAqs.Learner.ProjectionExact
import Mathlib.Tactic.LinearCombination

/-!
When the loop takes low elements the threshold drops, and the renormalisation seldom hides it:
the lists on which no order and no pivots matter are the `ListingSafe` ones.
-/

namespace RlAqs

/-! The tolerance of `gsl_fcmp` above one. -/

theorem lt_frexpExponent {x : ℚ} (positive : 0 < x) : x < (2 : ℚ) ^ frexpExponent x := by
  unfold frexpExponent
  simp only
  split
  · assumption
  · have numerator : (x.num.natAbs : ℚ) < 2 ^ ((Nat.log2 x.num.natAbs : Int) + 1) := by
      have bound := @Nat.lt_log2_self x.num.natAbs
      exact_mod_cast bound
    have denominator : (2 : ℚ) ^ (Nat.log2 x.den : Int) ≤ x.den := by
      exact_mod_cast Nat.log2_self_le x.den_pos.ne'
    have value : x = x.num.natAbs / x.den := by
      have whole : (x.num.natAbs : ℚ) = x.num := by
        rw [← Int.cast_natCast, Int.natAbs_of_nonneg (Rat.num_pos.mpr positive).le]
      rw [whole]
      exact (Rat.num_div_den x).symm
    have some_den : (0 : ℚ) < x.den := by exact_mod_cast x.den_pos
    calc x = x.num.natAbs / x.den := value
      _ < 2 ^ ((Nat.log2 x.num.natAbs : Int) + 1) / x.den :=
          div_lt_div_of_pos_right numerator some_den
      _ ≤ 2 ^ ((Nat.log2 x.num.natAbs : Int) + 1) / 2 ^ (Nat.log2 x.den : Int) :=
          div_le_div_of_nonneg_left (zpow_pos two_pos _).le (zpow_pos two_pos _) denominator
      _ = 2 ^ ((Nat.log2 x.num.natAbs : Int) - Nat.log2 x.den + 1) := by
          rw [← zpow_sub₀ two_ne_zero]
          congr 1
          ring

theorem gslFcmp_one_ne_zero_iff {sum : ℚ} (least : 1 ≤ sum) :
    gslFcmp sum 1 (1 / 10 ^ 6) ≠ 0 ↔ 2 * (1 / 10 ^ 6) < sum - 1 := by
  have positive : 0 < sum := by linarith
  generalize reach : (2 : ℚ) ^ frexpExponent sum = power
  have above := lt_frexpExponent positive
  have most := frexpExponent_le positive
  rw [reach] at above most
  have two : 2 ≤ power ∧ (sum < 2 → power = 2) := by
    have exponent : 0 < frexpExponent sum := by
      by_contra small
      have less : (2 : ℚ) ^ frexpExponent sum ≤ 2 ^ (0 : Int) :=
        zpow_le_zpow_right₀ one_le_two (by omega)
      rw [reach, zpow_zero] at less
      linarith
    have more : (2 : ℚ) ^ (1 : Int) ≤ 2 ^ frexpExponent sum :=
      zpow_le_zpow_right₀ one_le_two (by omega)
    rw [reach, zpow_one] at more
    refine ⟨more, fun small => ?_⟩
    by_contra different
    have larger : (2 : ℚ) ^ (2 : Int) ≤ 2 ^ frexpExponent sum := by
      apply zpow_le_zpow_right₀ one_le_two
      by_contra one
      have single : frexpExponent sum = 1 := by omega
      rw [single, zpow_one] at reach
      exact different reach.symm
    rw [reach] at larger
    norm_num at larger
    linarith
  have test : gslFcmp sum 1 (1 / 10 ^ 6) =
      if sum - 1 > 1 / 10 ^ 6 * power then 1 else 0 := by
    have not_below : ¬sum - 1 < -(1 / 10 ^ 6 * power) := by
      have size : 0 ≤ 1 / 10 ^ 6 * power := by
        have nonneg : 0 ≤ power := by linarith
        positivity
      linarith
    have top : (if |sum| > |(1 : ℚ)| then sum else 1) = sum := by
      rw [abs_of_pos positive, abs_one]
      split
      · rfl
      · linarith
    simp only [gslFcmp]
    rw [top, if_neg positive.ne', abs_of_pos positive, reach, if_neg not_below]
  rw [test]
  constructor
  · intro nonzero
    by_contra close
    apply nonzero
    rw [if_neg]
    have wide : 1 / 10 ^ 6 * 2 ≤ 1 / 10 ^ 6 * power :=
      mul_le_mul_of_nonneg_left two.1 (by norm_num)
    linarith
  · intro apart
    rw [if_pos]
    · exact one_ne_zero
    · rcases lt_or_ge sum 2 with small | large
      · rw [two.2 small]
        linarith
      · have wide : 1 / 10 ^ 6 * power ≤ 1 / 10 ^ 6 * (2 * sum) :=
          mul_le_mul_of_nonneg_left most (by norm_num)
        norm_num at wide ⊢
        linarith

namespace Simplex

variable {gradient : List ℚ} {theta s rho : ℚ} {chosen : List Nat}

/-! Values in place of indices. -/

theorem exists_index {x : ℚ} (member : x ∈ gradient) :
    ∃ index < gradient.length, gradient.getD index 0 = x := by
  obtain ⟨index, bound, rfl⟩ := List.mem_iff_getElem.mp member
  exact ⟨index, bound, List.getD_eq_getElem gradient 0 bound⟩

theorem getD_mem_list {index : Nat} (bound : index < gradient.length) :
    gradient.getD index 0 ∈ gradient := by
  rw [List.getD_eq_getElem gradient 0 bound]
  exact List.getElem_mem bound

section Sides

variable (threshold : HasThreshold gradient 1 theta) {x : ℚ} (member : x ∈ gradient)
include threshold member

theorem HasThreshold.overhang_lt_iff : overhang gradient x < 1 ↔ theta < x := by
  obtain ⟨index, bound, rfl⟩ := exists_index member
  exact threshold.high_iff bound

theorem HasThreshold.lt_overhang_iff : 1 < overhang gradient x ↔ x < theta := by
  obtain ⟨index, bound, rfl⟩ := exists_index member
  exact threshold.low_iff bound

end Sides

theorem HasThreshold.overhang_eq (threshold : HasThreshold gradient 1 theta) :
    overhang gradient theta = 1 :=
  (sum_cutOff gradient theta).trans threshold.sum

theorem projectionDuchi_reaches (some_element : gradient ≠ []) (short : gradient.length < 65536)
    (pivots : Nat → Nat) :
    ∃ chosen s rho, Taken gradient [] chosen s rho ∧
      (∀ index < gradient.length, High gradient 1 index → index ∈ chosen) ∧
      projectionDuchi gradient 1 0 pivots = some (cutOff gradient ((s - 1) / rho)) := by
  obtain ⟨chosen, s, rho, looped, taken, complete⟩ := pivotLoop_spec one_pos
    (fun u chosen => ∀ index < gradient.length, High gradient 1 index → index ∈ chosen ++ u)
    (by
      intro u chosen s rho pivot taken highs member passed index bound is_high
      rw [List.append_assoc, List.mem_append]
      exact (List.mem_append.mp (highs index bound is_high)).imp_right
        (filter_split_perm u pivot).mem_iff.mpr)
    (by
      intro u chosen s rho pivot taken highs member failed index bound is_high
      have different : index ≠ pivot := by
        rintro rfl
        exact failed ((taken.gap_le_excess index).trans_lt is_high)
      rw [List.mem_append, List.mem_erase_of_ne different]
      exact List.mem_append.mp (highs index bound is_high))
    pivots List.length_range.le (taken_start some_element)
    (fun index bound _ => List.mem_append_right _ (List.mem_range.mpr bound))
  refine ⟨chosen, s, rho, taken, ?_, projectionDuchi_eq short looped taken⟩
  simpa using complete

theorem Taken.sum_theta (taken : Taken gradient [] chosen s rho) :
    ∑ index ∈ chosen.toFinset, (gradient.getD index 0 - (s - 1) / rho) = 1 := by
  rw [taken.sum_chosen, mul_div_cancel₀ _ taken.rho_pos.ne']
  ring

theorem Taken.one_le_overhang (taken : Taken gradient [] chosen s rho) :
    1 ≤ overhang gradient ((s - 1) / rho) := by
  have sum := Threshold.sum_le_surplus (v := fun i => gradient.getD i 0) taken.chosen_subset
    ((s - 1) / rho)
  rwa [taken.sum_theta, ← sum_cutOff] at sum

theorem Taken.theta_le (taken : Taken gradient [] chosen s rho) {level : ℚ}
    (sum : ∑ index ∈ chosen.toFinset, (gradient.getD index 0 - level) ≤ 1) :
    (s - 1) / rho ≤ level := by
  rw [taken.sum_chosen] at sum
  rw [div_le_iff₀ taken.rho_pos]
  linarith

theorem Taken.le_theta (taken : Taken gradient [] chosen s rho) {level : ℚ}
    (sum : 1 ≤ ∑ index ∈ chosen.toFinset, (gradient.getD index 0 - level)) :
    level ≤ (s - 1) / rho := by
  rw [taken.sum_chosen] at sum
  rw [le_div_iff₀ taken.rho_pos]
  linarith

/-! A hidden drop of the threshold. -/

theorem overhang_of_two_levels {x c : ℚ} (high : ℚ → Prop) [DecidablePred high] (level : x ≤ c)
    (each : ∀ y ∈ gradient, if high y then y = c else y ≤ x) :
    overhang gradient x = ((gradient.filter fun y => high y).length : ℚ) * (c - x) := by
  rw [overhang, cutOff]
  induction gradient with
  | nil => simp
  | cons first rest ih =>
      have rest_each := ih fun y member => each y (List.mem_cons_of_mem _ member)
      have here := each first List.mem_cons_self
      rw [List.map_cons, List.sum_cons, rest_each]
      by_cases is_high : high first
      · rw [if_pos is_high] at here
        rw [here, max_eq_left (sub_nonneg.mpr level), List.filter_cons_of_pos (by simpa [← here]),
          List.length_cons]
        push_cast
        ring
      · rw [if_neg is_high] at here
        rw [max_eq_right (sub_nonpos.mpr here), List.filter_cons_of_neg (by simpa), zero_add]

theorem exists_top {low : Nat} (bound : low < gradient.length) (is_low : Low gradient 1 low) :
    ∃ top < gradient.length, ¬High gradient 1 top ∧
      ∀ index < gradient.length, ¬High gradient 1 index →
        gradient.getD index 0 ≤ gradient.getD top 0 := by
  have some_below : ((Finset.range gradient.length).filter fun index =>
      ¬High gradient 1 index).Nonempty :=
    ⟨low, Finset.mem_filter.mpr ⟨Finset.mem_range.mpr bound, lt_asymm is_low⟩⟩
  obtain ⟨top, member, largest⟩ :=
    Finset.exists_max_image _ (fun index => gradient.getD index 0) some_below
  obtain ⟨inside, not_high⟩ := Finset.mem_filter.mp member
  refine ⟨top, Finset.mem_range.mp inside, not_high, ?_⟩
  intro index inside not_high
  exact largest index (Finset.mem_filter.mpr ⟨Finset.mem_range.mpr inside, not_high⟩)

theorem sum_range_sub_level (gradient : List ℚ) (level : ℚ) :
    ∑ index ∈ Finset.range gradient.length, (gradient.getD index 0 - level) =
      gradient.sum - gradient.length * level := by
  rw [Finset.sum_sub_distrib, ← sum_eq_range, Finset.sum_const, Finset.card_range, nsmul_eq_mul]

/-- All of the gradient has at least as much above a cut off element as what was taken. -/
theorem Taken.below_theta (taken : Taken gradient [] chosen s rho)
    (complete : ∀ index < gradient.length, High gradient 1 index →
      index ∈ chosen) {top : Nat}
    (largest : ∀ index < gradient.length, ¬High gradient 1 index →
      gradient.getD index 0 ≤ gradient.getD top 0)
    (below : gradient.length * gradient.getD top 0 ≤ gradient.sum - 1) :
    gradient.getD top 0 ≤ (s - 1) / rho := by
  apply taken.le_theta
  have all : 1 ≤ ∑ index ∈ Finset.range gradient.length,
      (gradient.getD index 0 - gradient.getD top 0) := by
    rw [sum_range_sub_level]
    linarith
  have rest : ∑ index ∈ Finset.range gradient.length \ chosen.toFinset,
      (gradient.getD index 0 - gradient.getD top 0) ≤ 0 := by
    apply Finset.sum_nonpos
    intro index left
    obtain ⟨inside, out⟩ := Finset.mem_sdiff.mp left
    have bound := Finset.mem_range.mp inside
    rw [List.mem_toFinset] at out
    exact sub_nonpos.mpr (largest index bound fun is_high => out (complete index bound is_high))
  have split := Finset.sum_sdiff (f := fun index => gradient.getD index 0 - gradient.getD top 0)
    taken.chosen_subset
  linarith

theorem Taken.one_le_of_top (taken : Taken gradient [] chosen s rho) {low top : Nat}
    (smaller : gradient.getD low 0 ≤ gradient.getD top 0) (member : low ∈ chosen) :
    1 ≤ overhang gradient ((s - 1) / rho) + (gradient.getD top 0 - (s - 1) / rho) := by
  have sum := taken.sum_theta
  rw [← Finset.add_sum_erase _ _ (List.mem_toFinset.mpr member)] at sum
  have others := Threshold.sum_le_surplus (v := fun i => gradient.getD i 0)
    ((Finset.erase_subset low chosen.toFinset).trans taken.chosen_subset) ((s - 1) / rho)
  rw [← sum_cutOff] at others
  rw [overhang]
  linarith

theorem HasThreshold.exists_high (threshold : HasThreshold gradient 1 theta) :
    ∃ c ∈ gradient, theta < c := by
  by_contra none
  simp only [not_exists, not_and, not_lt] at none
  have zero := @overhang_of_two_levels gradient theta theta (fun _ => False) _ (le_refl theta)
    (by simpa using none)
  rw [threshold.overhang_eq, sub_self, mul_zero] at zero
  exact one_ne_zero zero

theorem HasThreshold.two_levels (threshold : HasThreshold gradient 1 theta) {c top level : ℚ}
    (alike : ∀ y ∈ gradient, theta < y → y = c) (largest : ∀ y ∈ gradient, y ≤ theta → y ≤ top)
    (above : top ≤ level) {y : ℚ} (inside : y ∈ gradient) :
    if overhang gradient y < 1 then y = c else y ≤ level := by
  split
  · rename_i y_high
    exact alike y inside ((threshold.overhang_lt_iff inside).mp y_high)
  · rename_i y_low
    rw [threshold.overhang_lt_iff inside] at y_low
    exact (largest y inside (not_lt.mp y_low)).trans above

theorem HasThreshold.overhang_between (threshold : HasThreshold gradient 1 theta)
    {c top level : ℚ} (alike : ∀ y ∈ gradient, theta < y → y = c)
    (largest : ∀ y ∈ gradient, y ≤ theta → y ≤ top) (above : top ≤ level) (under : level ≤ c) :
    overhang gradient level =
      ((gradient.filter fun y => overhang gradient y < 1).length : ℚ) * (c - level) :=
  overhang_of_two_levels _ under fun _ inside => threshold.two_levels alike largest above inside

theorem HasThreshold.largest_low (threshold : HasThreshold gradient 1 theta) {top : ℚ}
    (largest : ∀ index < gradient.length, ¬High gradient 1 index → gradient.getD index 0 ≤ top) :
    ∀ y ∈ gradient, y ≤ theta → y ≤ top := by
  intro y inside under
  obtain ⟨place, bound, rfl⟩ := exists_index inside
  exact largest place bound fun is_high =>
    absurd ((threshold.high_iff bound).mp is_high) (not_lt.mpr under)

section Drop

variable (threshold : HasThreshold gradient 1 theta) (taken : Taken gradient [] chosen s rho)
include threshold taken

theorem Taken.theta_lt {low : Nat} (member : low ∈ chosen) (is_low : Low gradient 1 low) :
    (s - 1) / rho < theta := by
  apply lt_of_le_of_ne _ (taken.theta_ne threshold member is_low)
  apply taken.theta_le
  have sum := Threshold.sum_le_surplus (v := fun i => gradient.getD i 0) taken.chosen_subset theta
  rwa [threshold.sum] at sum

/-- Every run stores the same weights when the drop is hidden. -/
theorem Taken.finish_eq (hidden : Hidden gradient) (epsilon : ℚ)
    (complete : ∀ index < gradient.length, High gradient 1 index → index ∈ chosen) {low : Nat}
    (member : low ∈ chosen) (is_low : Low gradient 1 low) {x : ℚ} (inside : x ∈ gradient) :
    finish epsilon gradient ((s - 1) / rho) x = finish epsilon gradient theta x := by
  have bound := Finset.mem_range.mp (taken.chosen_subset (List.mem_toFinset.mpr member))
  obtain ⟨top, top_bound, not_high, largest⟩ := exists_top bound is_low
  have below := taken.below_theta complete largest
    (hidden.below _ (getD_mem_list top_bound) (not_lt.mp not_high))
  have dropped := taken.theta_lt threshold member is_low
  obtain ⟨c, c_member, c_high⟩ := threshold.exists_high
  have alike : ∀ y ∈ gradient, theta < y → y = c := fun y y_member y_high =>
    hidden.alike y y_member c c_member ((threshold.overhang_lt_iff y_member).mpr y_high)
      ((threshold.overhang_lt_iff c_member).mpr c_high)
  have largest' := threshold.largest_low largest
  have at_theta := threshold.overhang_between alike largest' (below.trans dropped.le) c_high.le
  have at_drop := threshold.overhang_between alike largest' below (dropped.trans c_high).le
  have at_top := threshold.overhang_between alike largest' (le_refl _)
    (below.trans (dropped.trans c_high).le)
  have top_member := getD_mem_list top_bound
  have told := hidden.told _ top_member
    ((threshold.lt_overhang_iff top_member).mpr (below.trans_lt dropped))
  have spared := taken.one_le_of_top (largest low bound (lt_asymm is_low)) member
  have least := taken.one_le_overhang
  rw [threshold.overhang_eq] at at_theta
  generalize ((gradient.filter fun y => overhang gradient y < 1).length : ℚ) = k at *
  generalize (s - 1) / rho = drop at *
  have some_high : 0 < k := by
    by_contra none
    have small : k * (c - theta) ≤ 0 :=
      mul_nonpos_of_nonpos_of_nonneg (not_lt.mp none) (sub_nonneg.mpr c_high.le)
    linarith
  have apart : 2 * (1 / 10 ^ 6) < overhang gradient drop - 1 := by
    have scaled : k ≤ k * (overhang gradient drop + (gradient.getD top 0 - drop)) :=
      le_mul_of_one_le_right some_high.le spared
    have more : 2 * (1 / 10 ^ 6) * (k + 1) < (overhang gradient drop - 1) * (k + 1) := by
      linarith
    exact lt_of_mul_lt_mul_right more (by linarith)
  have same : max (x - drop) 0 * (1 / overhang gradient drop) = max (x - theta) 0 := by
    have here := threshold.two_levels alike largest' below inside
    split at here
    · subst here
      rw [max_eq_left (sub_nonneg.mpr (dropped.trans c_high).le),
        max_eq_left (sub_nonneg.mpr c_high.le), at_drop]
      have positive : 0 < x - drop := sub_pos.mpr (dropped.trans c_high)
      field_simp
      linarith
    · rw [max_eq_right (sub_nonpos.mpr here), max_eq_right (sub_nonpos.mpr
        (here.trans dropped.le)), zero_mul]
  rw [overhang] at apart same least
  have whole : (cutOff gradient theta).sum = 1 := threshold.overhang_eq
  have near : ¬gslFcmp 1 1 (1 / 10 ^ 6) ≠ 0 := by
    rw [gslFcmp_one_ne_zero_iff (le_refl 1)]
    norm_num
  simp only [finish]
  rw [if_pos ((gslFcmp_one_ne_zero_iff least).mpr apart), same, whole, if_neg near]

end Drop

/-! With all draws zero the loop takes the list from the first element that passes on. -/

theorem map_range' (before after : List ℚ) :
    (List.range' before.length after.length).map (fun index => (before ++ after).getD index 0) =
      after := by
  apply List.ext_getElem
  · simp
  · intro index left right
    rw [List.getElem_map, List.getElem_range', Nat.one_mul, List.getD_append_right _ _ _ _ (by omega),
      Nat.add_sub_cancel_left, List.getD_eq_getElem _ 0 right]

theorem pivotLoop_front (before post : List ℚ) (v z : ℚ) (fuel : Nat) :
    pivotLoop (before ++ v :: post) z (fuel + 1) (fun _ => 0)
      (List.range' before.length (post.length + 1)) 0 0 =
        if ((v :: post).map fun y => y - v).sum < z then
          some ((v :: post).sum, ((v :: post).length : ℚ))
        else pivotLoop (before ++ v :: post) z fuel (fun _ => 0)
          (List.range' (before.length + 1) post.length) 0 0 := by
  have values := map_range' before (v :: post)
  rw [List.length_cons, List.range'_succ] at values
  have all : ∀ index ∈ before.length :: List.range' (before.length + 1) post.length,
      before.length ≤ index := by
    intro index member
    rcases List.mem_cons.mp member with same | later
    · omega
    · have bound := (List.mem_range'_1.mp later).1
      omega
  have kept : (before.length :: List.range' (before.length + 1) post.length).filter
      (fun index => before.length ≤ index) =
        before.length :: List.range' (before.length + 1) post.length :=
    List.filter_eq_self.mpr fun index member => decide_eq_true (all index member)
  have none : (before.length :: List.range' (before.length + 1) post.length).filter
      (fun index => index < before.length) = [] :=
    List.filter_eq_nil_iff.mpr fun index member => by simpa using all index member
  have front : (before ++ v :: post).getD before.length 0 = v := by
    simp
  have test : ((v :: post).map fun y => y - v).sum =
      (v :: post).sum - ((v :: post).length : ℚ) * v := by
    generalize v :: post = after
    induction after with
    | nil => simp
    | cons y rest ih =>
        rw [List.map_cons, List.sum_cons, ih, List.sum_cons, List.length_cons]
        push_cast
        ring
  rw [List.range'_succ, pivotLoop]
  simp only [Nat.zero_mod, List.getD_cons_zero, kept, none, front, values, test, zero_add,
    List.eraseIdx_cons_zero, List.length_cons, List.length_range']
  cases fuel <;> rfl

theorem overhang_append {before after : List ℚ} {w : ℚ} (smaller : ∀ y ∈ before, y ≤ w)
    (larger : ∀ y ∈ after, w ≤ y) :
    overhang (before ++ after) w = (after.map fun y => y - w).sum := by
  have none : (before.map fun y => max (y - w) 0).sum = 0 := by
    apply List.sum_eq_zero
    intro x member
    obtain ⟨y, inside, rfl⟩ := List.mem_map.mp member
    exact max_eq_right (sub_nonpos.mpr (smaller y inside))
  have all : after.map (fun y => max (y - w) 0) = after.map fun y => y - w := by
    apply List.map_congr_left
    intro y inside
    exact max_eq_left (sub_nonneg.mpr (larger y inside))
  rw [overhang, cutOff, List.map_append, List.sum_append, none, zero_add, all]

theorem pivotLoop_suffix (before left post : List ℚ) (v : ℚ)
    (ascending : (before ++ left).Pairwise (· ≤ ·)) (under : ∀ w ∈ left, ∀ y ∈ v :: post, w ≤ y)
    (refused : ∀ w ∈ left, 1 ≤ overhang (before ++ (left ++ v :: post)) w)
    (passed : ((v :: post).map fun y => y - v).sum < 1) :
    pivotLoop (before ++ (left ++ v :: post)) 1 (left ++ v :: post).length (fun _ => 0)
      (List.range' before.length (left ++ v :: post).length) 0 0 =
        some ((v :: post).sum, ((v :: post).length : ℚ)) := by
  induction left generalizing before with
  | nil =>
      rw [List.nil_append, List.length_cons, pivotLoop_front, if_pos passed]
      rfl
  | cons w rest ih =>
      have shape : (before ++ [w]) ++ (rest ++ v :: post) = before ++ (w :: rest ++ v :: post) := by
        simp
      have sorted : ((before ++ [w]) ++ rest).Pairwise (· ≤ ·) := by simpa using ascending
      obtain ⟨_, behind, across⟩ := List.pairwise_append.mp ascending
      have smaller : ∀ y ∈ before, y ≤ w := fun y member => across y member w List.mem_cons_self
      have larger : ∀ y ∈ w :: rest ++ v :: post, w ≤ y := by
        intro y member
        rcases List.mem_append.mp member with here | later
        · rcases List.mem_cons.mp here with rfl | next
          · exact le_refl y
          · exact (List.pairwise_cons.mp behind).1 y next
        · exact under w List.mem_cons_self y later
      have failed : ¬((w :: (rest ++ v :: post)).map fun y => y - w).sum < 1 := by
        rw [← List.cons_append, ← overhang_append smaller larger]
        exact not_lt.mpr (refused w List.mem_cons_self)
      have later := ih (before ++ [w]) sorted
        (fun y member => under y (List.mem_cons_of_mem _ member))
        (fun y member => shape.symm ▸ refused y (List.mem_cons_of_mem _ member))
      have length : (before ++ [w]).length = before.length + 1 := by simp
      rw [shape, length] at later
      rw [List.cons_append, List.length_cons, pivotLoop_front, if_neg failed]
      exact later

theorem projectionDuchi_suffix {left post : List ℚ} {v : ℚ}
    (short : (left ++ v :: post).length < 65536) (ascending : left.Pairwise (· ≤ ·))
    (under : ∀ w ∈ left, ∀ y ∈ v :: post, w ≤ y)
    (refused : ∀ w ∈ left, 1 ≤ overhang (left ++ v :: post) w)
    (passed : ((v :: post).map fun y => y - v).sum < 1) :
    projectionDuchi (left ++ v :: post) 1 0 (fun _ => 0) =
      some (cutOff (left ++ v :: post) (((v :: post).sum - 1) / (v :: post).length)) := by
  have looped := pivotLoop_suffix [] left post v ascending under refused passed
  rw [List.nil_append, List.length_nil, ← List.range_eq_range'] at looped
  have divisor : ((v :: post).length : ℚ) ≠ 0 := by
    rw [List.length_cons]
    exact_mod_cast Nat.succ_ne_zero post.length
  simp only [projectionDuchi, indices, if_pos short, Option.bind_some, looped, divide,
    if_neg divisor, Option.map_some, cutOff]

/-! Three listings: everything is taken, only what is high is, or one low element too. -/

theorem exists_largest (some_element : gradient ≠ []) : ∃ c ∈ gradient, ∀ y ∈ gradient, y ≤ c := by
  obtain ⟨first, member⟩ := List.exists_mem_of_ne_nil gradient some_element
  obtain ⟨c, inside, largest⟩ := Finset.exists_max_image gradient.toFinset id
    ⟨first, List.mem_toFinset.mpr member⟩
  exact ⟨c, List.mem_toFinset.mp inside, fun y here => largest y (List.mem_toFinset.mpr here)⟩

theorem sum_sub_le_overhang (gradient : List ℚ) (level : ℚ) :
    gradient.sum - gradient.length * level ≤ overhang gradient level := by
  rw [← Sums.sum_sub]
  exact List.sum_le_sum fun y _ => le_max_left _ _

theorem overhang_antitone (gradient : List ℚ) {x y : ℚ} (smaller : x ≤ y) :
    overhang gradient y ≤ overhang gradient x :=
  List.sum_le_sum fun _ _ => max_le_max (by linarith) (le_refl 0)

theorem exists_all_taken (some_element : gradient ≠ []) (short : gradient.length < 65536) :
    ∃ listed, listed.Perm gradient ∧ projectionDuchi listed 1 0 (fun _ => 0) =
      some (cutOff listed ((gradient.sum - 1) / gradient.length)) := by
  obtain ⟨c, member, largest⟩ := exists_largest some_element
  have perm : (c :: gradient.erase c).Perm gradient := (List.perm_cons_erase member).symm
  have passed : ((c :: gradient.erase c).map fun y => y - c).sum < 1 := by
    have bounded := List.sum_le_card_nsmul (c :: gradient.erase c) c
      fun y listed => largest y (perm.mem_iff.mp listed)
    rw [nsmul_eq_mul] at bounded
    rw [Sums.sum_sub]
    linarith
  have none : ∀ w ∈ ([] : List ℚ), 1 ≤ overhang ([] ++ c :: gradient.erase c) w :=
    fun w inside => absurd inside List.not_mem_nil
  have run := projectionDuchi_suffix (by rw [List.nil_append, perm.length_eq]; exact short)
    List.Pairwise.nil (fun w inside => absurd inside List.not_mem_nil) none passed
  rw [List.nil_append, perm.sum_eq, perm.length_eq] at run
  exact ⟨c :: gradient.erase c, perm, run⟩

theorem exists_suffix_taken (short : gradient.length < 65536) {lower post : List ℚ} {v : ℚ}
    (perm : (lower ++ v :: post).Perm gradient) (under : ∀ w ∈ lower, ∀ y ∈ v :: post, w ≤ y)
    (refused : ∀ w ∈ lower, 1 ≤ overhang gradient w)
    (passed : ((v :: post).map fun y => y - v).sum < 1) :
    ∃ listed, listed.Perm gradient ∧ projectionDuchi listed 1 0 (fun _ => 0) =
      some (cutOff listed (((v :: post).sum - 1) / (v :: post).length)) := by
  have sorted := lower.perm_insertionSort (· ≤ ·)
  have perm' := (sorted.append_right (v :: post)).trans perm
  refine ⟨_, perm', projectionDuchi_suffix (by rw [perm'.length_eq]; exact short)
    (lower.pairwise_insertionSort _) ?_ ?_ passed⟩
  · intro w inside
    exact under w (sorted.mem_iff.mp inside)
  · intro w inside
    rw [overhang_perm perm']
    exact refused w (sorted.mem_iff.mp inside)

theorem split_perm (gradient : List ℚ) :
    ((gradient.filter fun y => !decide (overhang gradient y < 1)) ++
      gradient.filter fun y => overhang gradient y < 1).Perm gradient :=
  List.perm_append_comm.trans (List.filter_append_perm _ _)

section Needed

variable (threshold : HasThreshold gradient 1 theta)
include threshold

theorem HasThreshold.le_of_not_high {w : ℚ}
    (member : w ∈ gradient.filter fun y => !decide (overhang gradient y < 1)) :
    w ≤ theta ∧ 1 ≤ overhang gradient w := by
  obtain ⟨inside, not_high⟩ := List.mem_filter.mp member
  simp only [Bool.not_eq_true', decide_eq_false_iff_not] at not_high
  refine ⟨?_, not_lt.mp not_high⟩
  rw [threshold.overhang_lt_iff inside] at not_high
  exact not_lt.mp not_high

theorem HasThreshold.lt_of_high {w : ℚ}
    (member : w ∈ gradient.filter fun y => overhang gradient y < 1) : theta < w := by
  obtain ⟨inside, is_high⟩ := List.mem_filter.mp member
  exact (threshold.overhang_lt_iff inside).mp (of_decide_eq_true is_high)

theorem HasThreshold.exists_high_taken (short : gradient.length < 65536) :
    ∃ listed, listed.Perm gradient ∧
      projectionDuchi listed 1 0 (fun _ => 0) = some (cutOff listed theta) := by
  have perm := split_perm gradient
  generalize choice : (gradient.filter fun y => !decide (overhang gradient y < 1)) = lower at perm
  generalize choice' : (gradient.filter fun y => decide (overhang gradient y < 1)) = upper at perm
  have small : ∀ w ∈ lower, w ≤ theta ∧ 1 ≤ overhang gradient w :=
    fun w member => threshold.le_of_not_high (choice ▸ member)
  have large : ∀ w ∈ upper, theta < w := fun w member => threshold.lt_of_high (choice' ▸ member)
  have sorted := upper.perm_insertionSort (· ≤ ·)
  have ascending := upper.pairwise_insertionSort (· ≤ ·)
  have perm' := (sorted.append_left lower).trans perm
  have large' : ∀ w ∈ upper.insertionSort (· ≤ ·), theta < w :=
    fun w member => large w (sorted.mem_iff.mp member)
  have sum :=
    overhang_append (fun w member => (small w member).1) fun w member => (large' w member).le
  rw [overhang_perm perm', threshold.overhang_eq, Sums.sum_sub] at sum
  match shape : upper.insertionSort (· ≤ ·) with
  | [] =>
      rw [shape] at sum
      simp at sum
  | v :: post =>
      rw [shape] at sum perm' large' ascending
      have positive : (0 : ℚ) < (v :: post).length := by
        rw [List.length_cons]
        exact_mod_cast Nat.succ_pos post.length
      have under : ∀ w ∈ lower, ∀ y ∈ v :: post, w ≤ y := fun w member y member' =>
        (small w member).1.trans (large' y member').le
      have passed : ((v :: post).map fun y => y - v).sum < 1 := by
        have above : ∀ y ∈ v :: post, v ≤ y := by
          intro y member
          rcases List.mem_cons.mp member with rfl | later
          · exact le_refl y
          · exact (List.pairwise_cons.mp ascending).1 y later
        have inside : v ∈ gradient :=
          perm'.mem_iff.mp (List.mem_append_right _ List.mem_cons_self)
        rw [← overhang_append (fun w member => under w member v List.mem_cons_self) above,
          overhang_perm perm', threshold.overhang_lt_iff inside]
        exact large' v List.mem_cons_self
      have level : ((v :: post).sum - 1) / (v :: post).length = theta := by
        rw [div_eq_iff positive.ne']
        linarith
      obtain ⟨listed, reordered, run⟩ := exists_suffix_taken short perm' under
        (fun w member => (small w member).2) passed
      rw [level] at run
      exact ⟨listed, reordered, run⟩

/-- With high elements of one size, the largest of the others can be taken alone. -/
theorem HasThreshold.exists_one_taken (short : gradient.length < 65536) {c top : ℚ}
    (alike : ∀ y ∈ gradient, theta < y → y = c) (inside : top ∈ gradient) (lower : top < theta)
    (largest : ∀ y ∈ gradient, y ≤ theta → y ≤ top) :
    let k := (gradient.filter fun y => overhang gradient y < 1).length
    ∃ listed, listed.Perm gradient ∧ projectionDuchi listed 1 0 (fun _ => 0) =
      some (cutOff listed ((k * c + top - 1) / (k + 1))) := by
  intro k
  have perm := split_perm gradient
  generalize choice : (gradient.filter fun y => !decide (overhang gradient y < 1)) = others at perm
  have small : ∀ w ∈ others, w ≤ theta ∧ 1 ≤ overhang gradient w :=
    fun w member => threshold.le_of_not_high (choice ▸ member)
  have all : ∀ w ∈ gradient.filter (fun y => overhang gradient y < 1), w = c := fun w member =>
    alike w (List.mem_filter.mp member).1 (threshold.lt_of_high member)
  obtain ⟨high, high_inside, is_high⟩ := threshold.exists_high
  have high_member : high ∈ gradient.filter fun y => overhang gradient y < 1 :=
    List.mem_filter.mpr
      ⟨high_inside, decide_eq_true ((threshold.overhang_lt_iff high_inside).mpr is_high)⟩
  have size : ((gradient.filter fun y => overhang gradient y < 1).length : ℚ) = k := rfl
  have sum := List.sum_eq_card_nsmul _ c all
  rw [nsmul_eq_mul, size] at sum
  have top_member : top ∈ others := by
    rw [← choice, List.mem_filter]
    refine ⟨inside, ?_⟩
    have not_high := (threshold.overhang_lt_iff inside).not.mpr (not_lt.mpr lower.le)
    simpa using not_high
  have erased := List.perm_cons_erase top_member
  match shape : gradient.filter fun y => overhang gradient y < 1 with
  | [] =>
      rw [shape] at high_member
      cases high_member
  | first :: rest =>
      rw [shape] at sum perm all size
      have first_eq := all first List.mem_cons_self
      subst first_eq
      rw [List.sum_cons] at sum
      rw [List.length_cons, Nat.cast_add, Nat.cast_one] at size
      have moved : (others.erase top ++ first :: top :: rest).Perm gradient := by
        have swapped := (List.Perm.swap top first rest).append_left (others.erase top)
        have gathered : (others.erase top ++ top :: first :: rest).Perm (others ++ first :: rest) :=
          List.perm_middle.trans (erased.symm.append_right (first :: rest))
        exact (swapped.trans gathered).trans perm
      have first_high : theta < first := by
        rw [← alike high high_inside is_high]
        exact is_high
      have under : ∀ w ∈ others.erase top, ∀ y ∈ first :: top :: rest, w ≤ y := by
        intro w member y member'
        have listed := List.mem_of_mem_erase member
        have below := largest w (perm.mem_iff.mp (List.mem_append_left _ listed)) (small w listed).1
        rcases List.mem_cons.mp member' with rfl | later
        · linarith
        · rcases List.mem_cons.mp later with rfl | last
          · exact below
          · rw [all y (List.mem_cons_of_mem _ last)]
            linarith
      have length : ((first :: top :: rest).length : ℚ) = k + 1 := by
        rw [List.length_cons, List.length_cons, ← size]
        push_cast
        ring
      have passed : ((first :: top :: rest).map fun y => y - first).sum < 1 := by
        rw [Sums.sum_sub, length, List.sum_cons, List.sum_cons]
        linarith
      obtain ⟨listed, reordered, run⟩ := exists_suffix_taken short moved under
        (fun w member => (small w (List.mem_of_mem_erase member)).2) passed
      refine ⟨listed, reordered, ?_⟩
      rw [run, length, List.sum_cons, List.sum_cons, ← sum]
      congr 3
      ring

theorem HasThreshold.sum_lt {low : ℚ} (inside : low ∈ gradient) (below : low < theta) :
    gradient.sum - 1 < gradient.length * theta := by
  obtain ⟨index, bound, rfl⟩ := exists_index inside
  have others := Threshold.sum_le_surplus (v := fun i => gradient.getD i 0)
    (Finset.erase_subset index (Finset.range gradient.length)) theta
  have sum := Finset.add_sum_erase _ (fun i => gradient.getD i 0 - theta)
    (Finset.mem_range.mpr bound)
  rw [sum_range_sub_level] at sum
  rw [threshold.sum] at others
  linarith

theorem HasThreshold.told {epsilon other : ℚ} (loose : gradient.length * epsilon ≠ 1)
    (least : 1 ≤ overhang gradient other) (different : other ≠ theta)
    (agree : ∀ x ∈ gradient, finish epsilon gradient other x = finish epsilon gradient theta x) :
    2 * (1 / 10 ^ 6) < overhang gradient other - 1 ∧
      ∀ x ∈ gradient, max (x - other) 0 * (1 / overhang gradient other) = max (x - theta) 0 := by
  have factor : 1 - ((gradient.length : ℚ) - 1) * epsilon - epsilon ≠ 0 := by
    intro zero
    apply loose
    linarith
  have whole : (cutOff gradient theta).sum = 1 := threshold.overhang_eq
  have near : ¬gslFcmp 1 1 (1 / 10 ^ 6) ≠ 0 := by
    rw [gslFcmp_one_ne_zero_iff (le_refl 1)]
    norm_num
  simp only [finish, whole, if_neg near, add_right_inj, mul_right_inj' factor] at agree
  by_cases told : gslFcmp (cutOff gradient other).sum 1 (1 / 10 ^ 6) ≠ 0
  · simp only [if_pos told] at agree
    exact ⟨(gslFcmp_one_ne_zero_iff least).mp told, agree⟩
  · simp only [if_neg told] at agree
    exact absurd (cutOff_inj threshold (List.map_congr_left agree)) different

/-- Taking everything agrees only if the high elements are alike and the mean is above all others. -/
theorem HasThreshold.alike_of_agree (some_element : gradient ≠ []) {epsilon : ℚ}
    (loose : gradient.length * epsilon ≠ 1) {low : ℚ} (low_inside : low ∈ gradient)
    (is_low : low < theta)
    (agree : ∀ x ∈ gradient, finish epsilon gradient ((gradient.sum - 1) / gradient.length) x =
      finish epsilon gradient theta x) :
    (∀ x ∈ gradient, ∀ y ∈ gradient, theta < x → theta < y → x = y) ∧
      ∀ x ∈ gradient, x ≤ theta → gradient.length * x ≤ gradient.sum - 1 ∧ x < theta := by
  have sum_lt := threshold.sum_lt low_inside is_low
  have positive : (0 : ℚ) < gradient.length := by
    exact_mod_cast List.length_pos_iff.mpr some_element
  generalize level : (gradient.sum - 1) / gradient.length = mean at agree
  have mean_eq : gradient.sum - 1 = gradient.length * mean := by
    rw [← level, mul_div_cancel₀ _ positive.ne']
  have mean_lt : mean < theta := by
    rw [mean_eq] at sum_lt
    exact lt_of_mul_lt_mul_left sum_lt positive.le
  have least : 1 ≤ overhang gradient mean := by
    have sum := sum_sub_le_overhang gradient mean
    linarith
  obtain ⟨apart, lifted⟩ := threshold.told loose least mean_lt.ne agree
  have shrunk : 1 / overhang gradient mean < 1 := by
    rw [div_lt_one (by linarith)]
    linarith
  constructor
  · intro x x_inside y y_inside x_high y_high
    have x_lifted := lifted x x_inside
    have y_lifted := lifted y y_inside
    rw [max_eq_left (by linarith), max_eq_left (by linarith)] at x_lifted y_lifted
    have product : (x - y) * (1 - 1 / overhang gradient mean) = 0 := by linarith
    rcases mul_eq_zero.mp product with same | one
    · linarith
    · linarith
  · intro x inside under
    have x_lifted := lifted x inside
    rw [max_eq_right (by linarith : x - theta ≤ 0)] at x_lifted
    have inverse : 1 / overhang gradient mean ≠ 0 := by
      rw [one_div]
      exact inv_ne_zero (by linarith)
    have cut : x - mean ≤ 0 :=
      (le_max_left _ 0).trans ((mul_eq_zero.mp x_lifted).resolve_right inverse).le
    refine ⟨?_, by linarith⟩
    rw [mean_eq]
    exact mul_le_mul_of_nonneg_left (by linarith) positive.le

theorem HasThreshold.told_of_one_taken {epsilon c top : ℚ}
    (loose : gradient.length * epsilon ≠ 1) (alike : ∀ y ∈ gradient, theta < y → y = c)
    (largest : ∀ y ∈ gradient, y ≤ theta → y ≤ top) (inside : top ∈ gradient)
    (lower : top < theta) (high : theta < c)
    (agree : let k := (gradient.filter fun y => overhang gradient y < 1).length
      ∀ x ∈ gradient, finish epsilon gradient ((k * c + top - 1) / (k + 1)) x =
        finish epsilon gradient theta x) :
    2 * (1 / 10 ^ 6) * ((gradient.filter fun y => overhang gradient y < 1).length + 1) <
      overhang gradient top - 1 := by
  have at_theta := threshold.overhang_between alike largest lower.le high.le
  have at_top := threshold.overhang_between alike largest (le_refl top) (lower.trans high).le
  have at_level := fun level (above : top ≤ level) (under : level ≤ c) =>
    threshold.overhang_between alike largest above under
  rw [threshold.overhang_eq] at at_theta
  have top_low := (threshold.lt_overhang_iff inside).mpr lower
  have counted : (0 : ℚ) ≤ ((gradient.filter fun y => overhang gradient y < 1).length : ℚ) :=
    Nat.cast_nonneg _
  dsimp only at agree
  generalize ((gradient.filter fun y => overhang gradient y < 1).length : ℚ) = k at *
  generalize level : (k * c + top - 1) / (k + 1) = other at agree
  have level_eq : k * c + top - 1 = other * (k + 1) := by
    rw [← level, div_mul_cancel₀]
    linarith
  have k_positive : 0 < k + 1 := by linarith
  have above : top ≤ other := by
    have scaled : top * (k + 1) ≤ other * (k + 1) := by linarith
    exact le_of_mul_le_mul_right scaled k_positive
  have under : other < theta := by
    have scaled : other * (k + 1) < theta * (k + 1) := by linarith
    exact lt_of_mul_lt_mul_right scaled k_positive.le
  have at_other := at_level other above (under.trans high).le
  have balance : (overhang gradient other - 1) * (k + 1) = overhang gradient top - 1 := by
    rw [at_other, at_top]
    linear_combination k * level_eq
  have least : 1 ≤ overhang gradient other := by
    by_contra less
    have negative := mul_neg_of_neg_of_pos (sub_neg.mpr (not_le.mp less)) k_positive
    linarith
  have apart := mul_lt_mul_of_pos_right
    (threshold.told loose least under.ne agree).1 k_positive
  linarith

theorem HasThreshold.hidden_of_agree (some_element : gradient ≠ [])
    (short : gradient.length < 65536) {epsilon : ℚ} (loose : gradient.length * epsilon ≠ 1)
    {low : ℚ} (low_inside : low ∈ gradient) (is_low : 1 < overhang gradient low)
    (agree : ∀ listed, listed.Perm gradient → ∀ other,
      projectionDuchi listed 1 0 (fun _ => 0) = some (cutOff listed other) →
        ∀ x ∈ gradient, finish epsilon gradient other x = finish epsilon gradient theta x) :
    Hidden gradient := by
  obtain ⟨full, full_perm, full_run⟩ := exists_all_taken some_element short
  obtain ⟨alike, below⟩ := threshold.alike_of_agree some_element loose low_inside
    ((threshold.lt_overhang_iff low_inside).mp is_low) (agree full full_perm _ full_run)
  obtain ⟨low_index, low_bound, rfl⟩ := exists_index low_inside
  obtain ⟨index, bound, not_high, largest⟩ := exists_top low_bound is_low
  have top_inside := getD_mem_list bound
  generalize value : gradient.getD index 0 = top at largest top_inside
  have top_lt : top < theta := by
    rw [threshold.high_iff bound, value] at not_high
    exact (below top top_inside (not_lt.mp not_high)).2
  have largest' := threshold.largest_low largest
  obtain ⟨c, c_inside, c_high⟩ := threshold.exists_high
  have alike' : ∀ y ∈ gradient, theta < y → y = c :=
    fun y inside y_high => alike y inside c c_inside y_high c_high
  obtain ⟨part, part_perm, part_run⟩ :=
    threshold.exists_one_taken short alike' top_inside top_lt largest'
  refine ⟨?_, ?_, ?_⟩
  · intro x x_inside y y_inside x_high y_high
    exact alike x x_inside y y_inside ((threshold.overhang_lt_iff x_inside).mp x_high)
      ((threshold.overhang_lt_iff y_inside).mp y_high)
  · intro x inside x_low
    have under : x ≤ theta := by
      by_contra above
      exact absurd ((threshold.overhang_lt_iff inside).mpr (not_le.mp above)) (not_lt.mpr x_low)
    exact (below x inside under).1
  · intro x inside x_low
    have under := largest' x inside ((threshold.lt_overhang_iff inside).mp x_low).le
    have more := overhang_antitone gradient under
    have told := threshold.told_of_one_taken loose alike' largest' top_inside top_lt c_high
      (agree part part_perm _ part_run)
    linarith

end Needed

end Simplex

end RlAqs
