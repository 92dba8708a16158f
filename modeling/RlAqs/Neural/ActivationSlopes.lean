import RlAqs.Neural.FeedforwardCore
import Mathlib

/-!
The activation classes over the reals, and their derivatives. The activation of `HTangent` halves
its argument, its derivative does not.
-/

namespace RlAqs.Activation

noncomputable def hTangent : Activation ℝ where
  activate x := Real.tanh (0.5 * x)
  deriv x :=
    let temp := 1 / Real.cosh x
    temp * temp
  deriv2nd x :=
    let temp := 1 / Real.cosh x;
    -2.0 * temp * temp * Real.tanh x

noncomputable def logistic : Activation ℝ where
  activate x := 1 / (1 + Real.exp (-x))
  deriv x :=
    let activate := 1 / (1 + Real.exp (-x))
    activate * (1 - activate)
  deriv2nd _ := 0

theorem hasDerivAt_tanh (x : ℝ) : HasDerivAt Real.tanh (1 / Real.cosh x ^ 2) x := by
  have positive := Real.cosh_pos x
  have quotient := (Real.hasDerivAt_sinh x).div (Real.hasDerivAt_cosh x) positive.ne'
  have same : (fun x => Real.sinh x / Real.cosh x) = Real.tanh :=
    funext fun x => (Real.tanh_eq_sinh_div_cosh x).symm
  have slope : (Real.cosh x * Real.cosh x - Real.sinh x * Real.sinh x) / Real.cosh x ^ 2 =
      1 / Real.cosh x ^ 2 := by
    rw [← pow_two, ← pow_two, Real.cosh_sq_sub_sinh_sq]
  rw [← same, ← slope]
  exact quotient

theorem hTangent_slope (x : ℝ) :
    HasDerivAt hTangent.activate (1 / (1 + Real.cosh x)) x := by
  have half : hTangent.activate = Real.tanh ∘ fun x => 1 / 2 * x := by
    funext x
    simp only [hTangent, Function.comp_apply]
    norm_num
  have inner : HasDerivAt (fun x : ℝ => 1 / 2 * x) (1 / 2) x := by
    simpa using (hasDerivAt_id x).const_mul (1 / 2 : ℝ)
  have composed := (hasDerivAt_tanh (1 / 2 * x)).comp x inner
  rw [half]
  refine composed.congr_deriv ?_
  have double : Real.cosh x = 2 * Real.cosh (1 / 2 * x) ^ 2 - 1 := by
    have half := Real.cosh_two_mul (1 / 2 * x)
    have squares := Real.cosh_sq_sub_sinh_sq (1 / 2 * x)
    rw [show 2 * (1 / 2 * x) = x by ring] at half
    linarith
  have positive := Real.cosh_pos (1 / 2 * x)
  rw [double]
  field_simp
  ring

theorem hTangent_deriv_eq : hTangent.deriv = fun x => 1 / Real.cosh x ^ 2 := by
  funext x
  simp only [hTangent]
  rw [div_mul_div_comm, one_mul, pow_two]

theorem hTangent_deriv_iff (x : ℝ) :
    HasDerivAt hTangent.activate (hTangent.deriv x) x ↔ Real.cosh x = Real.goldenRatio := by
  have positive := Real.cosh_pos x
  have meets : HasDerivAt hTangent.activate (hTangent.deriv x) x ↔
      Real.cosh x ^ 2 = 1 + Real.cosh x := by
    rw [hTangent_deriv_eq]
    constructor
    · intro slope
      simpa only [one_div, inv_inj] using slope.unique (hTangent_slope x)
    · intro same
      have value := hTangent_slope x
      rwa [← same] at value
  rw [meets]
  constructor
  · intro square
    have product : (Real.cosh x - Real.goldenRatio) * (Real.cosh x - Real.goldenConj) = 0 := by
      have sum := Real.goldenRatio_add_goldenConj
      have pair := Real.goldenRatio_mul_goldenConj
      linear_combination square - Real.cosh x * sum + pair
    refine sub_eq_zero.mp ((mul_eq_zero.mp product).resolve_right ?_)
    have below := Real.goldenConj_neg
    exact (by linarith : 0 < Real.cosh x - Real.goldenConj).ne'
  · intro golden
    rw [golden, Real.goldenRatio_sq, add_comm]

theorem hTangent_deriv2nd (x : ℝ) : HasDerivAt hTangent.deriv (hTangent.deriv2nd x) x := by
  have positive := Real.cosh_pos x
  rw [hTangent_deriv_eq]
  have power := ((Real.hasDerivAt_cosh x).fun_pow 2).fun_inv (pow_ne_zero 2 positive.ne')
  have same : (fun x => 1 / Real.cosh x ^ 2) = fun x => (Real.cosh x ^ 2)⁻¹ := by
    funext x
    rw [one_div]
  rw [same]
  refine power.congr_deriv ?_
  have two : (2.0 : ℝ) = 2 := by norm_num
  simp only [hTangent, Real.tanh_eq_sinh_div_cosh, two]
  field_simp
  ring

theorem logistic_deriv (x : ℝ) : HasDerivAt logistic.activate (logistic.deriv x) x := by
  have positive : 0 < 1 + Real.exp (-x) := by positivity
  have inner : HasDerivAt (fun x : ℝ => 1 + Real.exp (-x)) (-Real.exp (-x)) x := by
    simpa using ((hasDerivAt_neg x).exp).const_add 1
  have inverse := inner.inv positive.ne'
  have same : logistic.activate = fun x => (1 + Real.exp (-x))⁻¹ := by
    funext x
    exact one_div _
  rw [same]
  refine inverse.congr_deriv ?_
  simp only [logistic]
  field_simp
  ring

theorem identity_deriv (x : ℝ) : HasDerivAt identity.activate (identity.deriv x) x :=
  hasDerivAt_id x

/-- Of the derivatives, that of `HTangent` alone is wrong, but for the two points at which the
hyperbolic cosine is the golden ratio. -/
theorem slopes_iff (x : ℝ) :
    (HasDerivAt hTangent.activate (hTangent.deriv x) x ∧
        HasDerivAt hTangent.deriv (hTangent.deriv2nd x) x ∧
        HasDerivAt logistic.activate (logistic.deriv x) x) ↔ Real.cosh x = Real.goldenRatio := by
  rw [hTangent_deriv_iff]
  exact and_iff_left ⟨hTangent_deriv2nd x, logistic_deriv x⟩

/-- At zero the slope is a half, and the derivative one. -/
theorem hTangent_deriv_zero :
    hTangent.deriv 0 = 1 ∧ HasDerivAt hTangent.activate (1 / 2) 0 ∧
      ¬∀ x, HasDerivAt hTangent.activate (hTangent.deriv x) x := by
  have slope := hTangent_slope 0
  have value : hTangent.deriv 0 = 1 := by simp [hTangent]
  rw [Real.cosh_zero, one_add_one_eq_two] at slope
  refine ⟨value, slope, fun always => ?_⟩
  have same := slope.unique (always 0)
  rw [value] at same
  norm_num at same

end RlAqs.Activation
