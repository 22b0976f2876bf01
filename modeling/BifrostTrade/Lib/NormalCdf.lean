import BifrostTrade.Lib.Numerals
import Mathlib

/-!
# The normal distribution

The error function, and the distribution function and density of the normal distribution in terms
of it: the density is the derivative, the distribution function is increasing and between zero and
one, and it is symmetric.
-/

noncomputable section

open Real MeasureTheory

namespace Normal

open scoped Numerals

/-- The error function. -/
def erf (x : ℝ) : ℝ := 2 / √π * ∫ t in (0 : ℝ)..x, exp (-t ^ 2)

theorem continuous_gauss : Continuous fun t : ℝ => exp (-t ^ 2) := by
  fun_prop

theorem hasDerivAt_erf (x : ℝ) : HasDerivAt erf (2 / √π * exp (-x ^ 2)) x :=
  (continuous_gauss.integral_hasStrictDerivAt 0 x).hasDerivAt.const_mul _

theorem erf_neg (x : ℝ) : erf (-x) = -erf x := by
  have h := intervalIntegral.integral_comp_neg (a := 0) (b := x) fun t : ℝ => exp (-t ^ 2)
  simp only [neg_sq, neg_zero] at h
  rw [erf, erf, intervalIntegral.integral_symm, ← h, mul_neg]

/-- The distribution function, as it is written with the error function. -/
def cdf (x : ℝ) : ℝ := 1 / 2 * (1 + erf (x / √2))

/-- The density. -/
def pdf (x : ℝ) : ℝ := exp (-(1 / 2) * x * x) / √(2 * π)

theorem pdf_pos (x : ℝ) : 0 < pdf x := by
  unfold pdf
  positivity

theorem hasDerivAt_cdf (x : ℝ) : HasDerivAt cdf (pdf x) x := by
  have hinner : HasDerivAt (fun y : ℝ => y / √2) (1 / √2) x := (hasDerivAt_id x).div_const _
  have houter := ((hasDerivAt_erf (x / √2)).comp x hinner).const_add 1 |>.const_mul (1 / 2)
  refine HasDerivAt.congr_deriv houter ?_
  have hsq : (x / √2) ^ 2 = 1 / 2 * x * x := by
    rw [div_pow, sq_sqrt (by norm_num)]
    ring
  have hsqrt : √(2 * π) = √2 * √π := sqrt_mul (by norm_num) π
  have h2 : (√2) ≠ 0 := by positivity
  have hpi : (√π) ≠ 0 := by positivity
  rw [pdf, hsq, hsqrt, neg_mul, neg_mul]
  field_simp

/-- The distribution is symmetric. -/
theorem cdf_neg (x : ℝ) : cdf (-x) = 1 - cdf x := by
  rw [cdf, cdf, neg_div, erf_neg]
  ring

theorem tendsto_erf : Filter.Tendsto erf Filter.atTop (nhds 1) := by
  have hgauss : ∫ t in Set.Ioi (0 : ℝ), exp (-t ^ 2) = √π / 2 := by
    have h := integral_gaussian_Ioi 1
    simpa using h
  have hint : IntegrableOn (fun t : ℝ => exp (-t ^ 2)) (Set.Ioi 0) := by
    have h := integrable_exp_neg_mul_sq (b := 1) one_pos
    simpa using h.integrableOn
  have hlimit := (intervalIntegral_tendsto_integral_Ioi 0 hint Filter.tendsto_id).const_mul (2 / √π)
  rw [hgauss] at hlimit
  have hone : 2 / √π * (√π / 2) = 1 := by
    have hpi : (√π) ≠ 0 := by positivity
    field_simp
  rwa [hone] at hlimit

theorem erf_lt_one (x : ℝ) : erf x < 1 := by
  have hmono : StrictMono erf := strictMono_of_hasDerivAt_pos hasDerivAt_erf fun y => by positivity
  exact (hmono (lt_add_one x)).trans_le (hmono.monotone.ge_of_tendsto tendsto_erf (x + 1))

theorem cdf_pos (x : ℝ) : 0 < cdf x := by
  have h := erf_lt_one (-(x / √2))
  rw [erf_neg] at h
  rw [cdf]
  linarith

theorem cdf_lt_one (x : ℝ) : cdf x < 1 := by
  have h := cdf_pos (-x)
  rw [cdf_neg] at h
  linarith

theorem tendsto_cdf_atTop : Filter.Tendsto cdf Filter.atTop (nhds 1) := by
  have hinner : Filter.Tendsto (fun x : ℝ => x / √2) Filter.atTop Filter.atTop :=
    Filter.tendsto_id.atTop_div_const (by positivity)
  have h := ((tendsto_erf.comp hinner).const_add 1).const_mul (1 / 2)
  rwa [show (1 : ℝ) / 2 * (1 + 1) = 1 by norm_num] at h

theorem tendsto_cdf_atBot : Filter.Tendsto cdf Filter.atBot (nhds 0) := by
  have h := (tendsto_cdf_atTop.comp Filter.tendsto_neg_atBot_atTop).const_sub 1
  rw [sub_self] at h
  refine h.congr fun x => ?_
  rw [Function.comp_apply, cdf_neg, sub_sub_cancel]

theorem continuous_cdf : Continuous cdf :=
  continuous_iff_continuousAt.2 fun x => (hasDerivAt_cdf x).continuousAt

theorem cdf_zero : cdf 0 = 1 / 2 := by
  have h := cdf_neg 0
  rw [neg_zero] at h
  linarith

/-- The density falls on both sides of zero. -/
theorem pdf_le_of_sq_le {x y : ℝ} (h : x * x ≤ y * y) : pdf y ≤ pdf x := by
  refine div_le_div_of_nonneg_right (exp_le_exp.2 ?_) (sqrt_nonneg _)
  linarith

theorem pdf_le_pdf_zero (x : ℝ) : pdf x ≤ pdf 0 :=
  pdf_le_of_sq_le (by rw [mul_zero]; exact mul_self_nonneg x)

theorem pdf_zero_le : pdf 0 ≤ 4 / 10 := by
  have hroot : 0 < √(2 * π) := sqrt_pos.2 (by positivity)
  have hlow : 5 / 2 ≤ √(2 * π) := by
    refine le_sqrt_of_sq_le ?_
    linarith [pi_gt_d2]
  rw [pdf, mul_zero, exp_zero, div_le_iff₀ hroot]
  linarith

theorem differentiable_cdf : Differentiable ℝ cdf := fun x => (hasDerivAt_cdf x).differentiableAt

/-- Right of zero the distribution lies between its chord's slopes at the ends. -/
theorem mul_pdf_le_cdf {x : ℝ} (hx : 0 ≤ x) :
    pdf x * x ≤ cdf x - 1 / 2 ∧ cdf x - 1 / 2 ≤ pdf 0 * x := by
  have hzero : (0 : ℝ) ∈ Set.Icc 0 x := ⟨le_rfl, hx⟩
  have hself : x ∈ Set.Icc 0 x := ⟨hx, le_rfl⟩
  have hderiv : ∀ y ∈ interior (Set.Icc 0 x), pdf x ≤ deriv cdf y ∧ deriv cdf y ≤ pdf 0 := by
    intro y hy
    rw [interior_Icc] at hy
    rw [(hasDerivAt_cdf y).deriv]
    exact ⟨pdf_le_of_sq_le (mul_self_le_mul_self hy.1.le hy.2.le), pdf_le_pdf_zero y⟩
  have hlow := (convex_Icc 0 x).mul_sub_le_image_sub_of_le_deriv continuous_cdf.continuousOn
    differentiable_cdf.differentiableOn (fun y hy => (hderiv y hy).1) 0 hzero x hself hx
  have hhigh := (convex_Icc 0 x).image_sub_le_mul_sub_of_deriv_le continuous_cdf.continuousOn
    differentiable_cdf.differentiableOn (fun y hy => (hderiv y hy).2) 0 hzero x hself hx
  rw [cdf_zero, sub_zero] at hlow hhigh
  exact ⟨hlow, hhigh⟩

end Normal

end
