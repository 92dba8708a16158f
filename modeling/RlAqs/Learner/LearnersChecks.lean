import RlAqs.Learner.LearnersCore
import RlAqs.Learner.SimplexChecks
import Mathlib.Tactic.FieldSimp
import Mathlib.Tactic.Positivity

/-! The steps from a gradient to the stored strategy, one lemma for each. -/

namespace RlAqs

/-! The tolerance of `gsl_fcmp`. -/

theorem frexpExponent_le {x : ℚ} (positive : 0 < x) : (2 : ℚ) ^ frexpExponent x ≤ 2 * x := by
  unfold frexpExponent
  simp only
  split
  · have numerator : x.num.natAbs ≠ 0 := by
      simpa using positive.ne'
    have lower : (2 : ℚ) ^ (Nat.log2 x.num.natAbs : Int) ≤ x.num.natAbs := by
      exact_mod_cast Nat.log2_self_le numerator
    have upper : (x.den : ℚ) ≤ 2 ^ ((Nat.log2 x.den : Int) + 1) := by
      have bound := (@Nat.lt_log2_self x.den).le
      exact_mod_cast bound
    have denominator : (0 : ℚ) < x.den := by
      exact_mod_cast x.den_pos
    have value : x = x.num.natAbs / x.den := by
      have whole : (x.num.natAbs : ℚ) = x.num := by
        rw [← Int.cast_natCast, Int.natAbs_of_nonneg (Rat.num_pos.mpr positive).le]
      rw [whole]
      exact (Rat.num_div_den x).symm
    calc (2 : ℚ) ^ ((Nat.log2 x.num.natAbs : Int) - Nat.log2 x.den)
        = 2 * ((2 : ℚ) ^ (Nat.log2 x.num.natAbs : Int) / 2 ^ ((Nat.log2 x.den : Int) + 1)) := by
          rw [zpow_sub₀ two_ne_zero, zpow_add_one₀ two_ne_zero]
          field_simp
      _ ≤ 2 * (x.num.natAbs / x.den) := by
          gcongr
      _ = 2 * x := by rw [← value]
  · rename_i below
    rw [zpow_add_one₀ two_ne_zero]
    linarith

theorem gslFcmp_eq_zero {first second epsilon : ℚ} (nonneg : 0 ≤ epsilon)
    (equal : gslFcmp first second epsilon = 0) :
    |first - second| ≤ 2 * epsilon * max |first| |second| := by
  simp only [gslFcmp] at equal
  generalize larger : (if |first| > |second| then first else second) = top at equal
  have size : |top| = max |first| |second| := by
    rw [← larger]
    split
    · rename_i more
      exact (max_eq_left (le_of_lt more)).symm
    · rename_i less
      exact (max_eq_right (not_lt.mp less)).symm
  generalize shift : epsilon * (2 : ℚ) ^ (if top = 0 then 0 else frexpExponent |top|) = delta
    at equal
  have close : |first - second| ≤ delta := by
    by_cases upper : first - second > delta
    · simp [upper] at equal
    · by_cases lower : first - second < -delta
      · simp [upper, lower] at equal
      · exact abs_le.mpr ⟨not_lt.mp lower, not_lt.mp upper⟩
  by_cases zero : top = 0
  · have none : max |first| |second| = 0 := by rw [← size, zero, abs_zero]
    have first_zero : first = 0 := abs_nonpos_iff.mp (none ▸ le_max_left |first| |second|)
    have second_zero : second = 0 := abs_nonpos_iff.mp (none ▸ le_max_right |first| |second|)
    rw [none, first_zero, second_zero, sub_zero, abs_zero, mul_zero]
  · rw [if_neg zero] at shift
    calc |first - second| ≤ delta := close
      _ = epsilon * (2 : ℚ) ^ frexpExponent |top| := shift.symm
      _ ≤ epsilon * (2 * |top|) :=
          mul_le_mul_of_nonneg_left (frexpExponent_le (abs_pos.mpr zero)) nonneg
      _ = 2 * epsilon * max |first| |second| := by rw [size]; ring

/-! Sums of changed vectors. -/

theorem sum_mult (vec : List ℚ) (scalar : ℚ) : (Vector.mult vec scalar).sum = vec.sum * scalar := by
  unfold Vector.mult
  rw [List.sum_map_mul_right, List.map_id']

theorem sum_scale (vec : List ℚ) (min max : ℚ) :
    (Vector.scale vec min max).sum = vec.length * min + (max - min) * vec.sum := by
  induction vec with
  | nil => simp [Vector.scale]
  | cons x rest ih =>
      simp only [Vector.scale, List.map_cons, List.sum_cons, List.length_cons, Nat.cast_add,
        Nat.cast_one] at ih ⊢
      rw [ih]
      ring

/-- The sum is one, as far as `gsl_fcmp` can tell. -/
def NearOne (sum : ℚ) : Prop := |sum - 1| ≤ 2 * (1 / 10 ^ 6) * max |sum| 1

theorem normalise_spec {vec : List ℚ} (nonneg : ∀ x ∈ vec, 0 ≤ x) (positive : 0 < vec.sum) :
    ∃ normal, normalise vec = some normal ∧ normal.length = vec.length ∧
      (∀ x ∈ normal, 0 ≤ x) ∧ NearOne normal.sum := by
  unfold normalise
  split
  · refine ⟨Vector.mult vec (1 / vec.sum), by simp [divide, positive.ne'], by simp [Vector.mult],
      ?_, ?_⟩
    · intro x member
      obtain ⟨y, inside, rfl⟩ := List.mem_map.mp member
      exact mul_nonneg (nonneg y inside) (by positivity)
    · rw [sum_mult, mul_one_div_cancel positive.ne']
      norm_num [NearOne]
  · rename_i equal
    refine ⟨vec, rfl, rfl, nonneg, ?_⟩
    have close := gslFcmp_eq_zero (by norm_num) (Decidable.not_not.mp equal)
    rwa [abs_one] at close

theorem nearOne_squeezed {sum factor : ℚ} (natural : 0 ≤ sum) (nonneg : 0 ≤ factor)
    (small : factor ≤ 1) (near : NearOne sum) : NearOne (1 - factor + factor * sum) := by
  have middle : 1 - factor + factor * sum - 1 = factor * (sum - 1) := by ring
  rw [NearOne, middle, abs_mul, abs_of_nonneg nonneg]
  rw [NearOne, abs_of_nonneg natural] at near
  have product : 0 ≤ factor * sum := mul_nonneg nonneg natural
  rw [abs_of_nonneg (by linarith : 0 ≤ 1 - factor + factor * sum)]
  rcases le_total sum 1 with below | above
  · rw [max_eq_right below] at near
    calc factor * |sum - 1| ≤ 1 * |sum - 1| := mul_le_mul_of_nonneg_right small (abs_nonneg _)
      _ ≤ 2 * (1 / 10 ^ 6) * 1 := by rwa [one_mul]
      _ ≤ 2 * (1 / 10 ^ 6) * max (1 - factor + factor * sum) 1 :=
          mul_le_mul_of_nonneg_left (le_max_right _ _) (by norm_num)
  · rw [max_eq_left above] at near
    calc factor * |sum - 1| ≤ factor * (2 * (1 / 10 ^ 6) * sum) :=
          mul_le_mul_of_nonneg_left near nonneg
      _ ≤ 2 * (1 / 10 ^ 6) * (1 - factor + factor * sum) := by linarith
      _ ≤ 2 * (1 / 10 ^ 6) * max (1 - factor + factor * sum) 1 :=
          mul_le_mul_of_nonneg_left (le_max_left _ _) (by norm_num)

theorem squeeze_spec {epsilon : ℚ} {vec : List ℚ} (some_element : vec ≠ [])
    (nonneg : ∀ x ∈ vec, 0 ≤ x) (near : NearOne vec.sum) (low : 0 ≤ epsilon)
    (high : epsilon ≤ 1 / vec.length) :
    (∀ x ∈ squeeze epsilon vec, epsilon ≤ x) ∧ NearOne (squeeze epsilon vec).sum := by
  have length : (0 : ℚ) < vec.length := by
    exact_mod_cast List.length_pos_iff.mpr some_element
  have total : vec.length * epsilon ≤ 1 := by
    have scaled := mul_le_mul_of_nonneg_left high length.le
    rwa [mul_one_div_cancel length.ne'] at scaled
  have factor : 1 - ((vec.length : ℚ) - 1) * epsilon - epsilon = 1 - vec.length * epsilon := by ring
  constructor
  · intro x member
    obtain ⟨y, inside, rfl⟩ := List.mem_map.mp member
    rw [factor]
    have gain := mul_nonneg (by linarith : 0 ≤ 1 - vec.length * epsilon) (nonneg y inside)
    linarith
  · have sum : (squeeze epsilon vec).sum =
        1 - (1 - vec.length * epsilon) + (1 - vec.length * epsilon) * vec.sum := by
      rw [squeeze, sum_scale, factor]
      ring
    rw [sum]
    apply nearOne_squeezed (List.sum_nonneg nonneg) (by linarith) _ near
    linarith [mul_nonneg length.le low]

/-- The projection, the normalisation and the squeeze never divide by zero. -/
theorem strategy_total (epsilon : ℚ) {gradient : List ℚ} (some_element : gradient ≠ [])
    (short : gradient.length < 65536) (pivots : Nat → Nat) :
    ∃ normal, strategy epsilon gradient pivots = some (squeeze epsilon normal) ∧
      normal.length = gradient.length ∧ (∀ x ∈ normal, 0 ≤ x) ∧ NearOne normal.sum := by
  obtain ⟨_, _, projected, _, _, projection, length, nonneg, least⟩ :=
    Simplex.projectionDuchi_spec one_pos some_element short pivots
  obtain ⟨normal, normalised, length', nonneg', near⟩ :=
    normalise_spec nonneg (lt_of_lt_of_le one_pos least)
  refine ⟨normal, ?_, length'.trans length, nonneg', near⟩
  simp [strategy, projection, normalised]

theorem length_squeeze (epsilon : ℚ) (vec : List ℚ) : (squeeze epsilon vec).length = vec.length := by
  simp [squeeze, Vector.scale]

/-! Storing the strategy. -/

theorem setWeights_other (maps : EdgeMaps) (source : UInt16) (probabilities : Values)
    {edge : Nat × Nat} (other : ∀ value ∈ probabilities, edgeTo source value ≠ edge) :
    (maps.setWeights source probabilities).weight edge = maps.weight edge := by
  simp only [EdgeMaps.setWeights]
  generalize maps.weight = weight
  induction probabilities generalizing weight with
  | nil => rfl
  | cons value rest ih =>
      rw [List.foldl_cons, ih (fun later member => other later (List.mem_cons_of_mem _ member)),
        Function.update_of_ne (other value (by simp)).symm]

theorem edgeTo_inj {source : UInt16} {first second : UInt16 × ℚ}
    (same : edgeTo source first = edgeTo source second) : first.1 = second.1 :=
  UInt16.toNat.inj (Prod.mk.inj same).2

theorem setWeights_mem (maps : EdgeMaps) (source : UInt16) {probabilities : Values}
    (distinct : (probabilities.map Prod.fst).Nodup) {value : UInt16 × ℚ}
    (member : value ∈ probabilities) :
    (maps.setWeights source probabilities).weight (edgeTo source value) = value.2 := by
  simp only [EdgeMaps.setWeights]
  generalize maps.weight = weight
  induction probabilities generalizing weight with
  | nil => cases member
  | cons first rest ih =>
      simp only [List.map_cons, List.nodup_cons] at distinct
      rw [List.foldl_cons]
      rcases List.mem_cons.mp member with same | later
      · subst same
        have kept := setWeights_other { maps with
          weight := Function.update weight (edgeTo source value) value.2 } source rest
          (fun other inside same => distinct.1
            (List.mem_map.mpr ⟨other, inside, edgeTo_inj same⟩))
        simpa [EdgeMaps.setWeights] using kept
      · exact ih distinct.2 later _

/-! Choosing an action. -/

theorem accumulate_mem {uniform before : ℚ} {probabilities : Values} {action : UInt16}
    (found : accumulate uniform probabilities before = some action) :
    action ∈ probabilities.map Prod.fst := by
  induction probabilities generalizing before with
  | nil => cases found
  | cons value rest ih =>
      simp only [accumulate] at found
      split at found
      · simp only [Option.some.injEq] at found
        simp [found]
      · exact List.mem_cons_of_mem _ (ih found)

theorem select_mem (uniform : ℚ) {probabilities : Values} (some_action : probabilities ≠ []) :
    select uniform probabilities ∈ probabilities.map Prod.fst := by
  unfold select
  cases found : accumulate uniform probabilities 0 with
  | some action => exact accumulate_mem found
  | none =>
      rw [Option.getD_none, List.getLastD_eq_getLast?, List.getLast?_eq_some_getLast some_action]
      exact List.mem_map.mpr ⟨_, List.getLast_mem some_action, rfl⟩

end RlAqs
