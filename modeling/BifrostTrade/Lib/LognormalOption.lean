import BifrostTrade.Lib.NormalCdf

/-!
# The closed form of an option on a lognormal price

The price of a call and a put with the normal distribution function, and how it changes with the
spot, the volatility and the time.  The two terms of the price change alike where the arguments of
the distribution function do (`spot_pdf`), so a derivative sees the arguments only through the
total deviation (`hasDerivAt_value`).
-/

noncomputable section

open Real Normal Filter Topology

namespace LognormalOption

open scoped Numerals

/-! ## The formula -/

variable (S K T r σ : ℝ)

/-- The first argument of the distribution function. -/
def d1 : ℝ := (log (S / K) + (r + 1 / 2 * σ * σ) * T) / (σ * √T)

/-- The second one. -/
def d2 : ℝ := d1 S K T r σ - σ * √T

/-- The strike, discounted. -/
def forwardStrike : ℝ := K * exp (-r * T)

/-- The price of a call. -/
def call : ℝ := S * cdf (d1 S K T r σ) - forwardStrike K T r * cdf (d2 S K T r σ)

/-- The price of a put. -/
def put : ℝ := forwardStrike K T r * cdf (-d2 S K T r σ) - S * cdf (-d1 S K T r σ)

/-- **Put and call differ by the forward.** -/
theorem call_sub_put : call S K T r σ - put S K T r σ = S - forwardStrike K T r := by
  rw [call, put, cdf_neg, cdf_neg]
  ring

theorem put_eq : put S K T r σ = call S K T r σ - (S - forwardStrike K T r) := by
  rw [← call_sub_put S K T r σ, sub_sub_cancel]

variable {S K T r σ}

/-! ## The derivative of a price -/

/-- A price whose two terms change alike changes with the spot, the strike and the deviation. -/
theorem hasDerivAt_value {s k d v : ℝ → ℝ} {s' k' d' v' x : ℝ} (hs : HasDerivAt s s' x)
    (hk : HasDerivAt k k' x) (hd : HasDerivAt d d' x) (hv : HasDerivAt v v' x)
    (halike : s x * pdf (d x) = k x * pdf (d x - v x)) :
    HasDerivAt (fun y => s y * cdf (d y) - k y * cdf (d y - v y))
      (s' * cdf (d x) - k' * cdf (d x - v x) + s x * pdf (d x) * v') x := by
  have hfirst := hs.mul ((hasDerivAt_cdf (d x)).comp x hd)
  have hsecond := hk.mul ((hasDerivAt_cdf (d x - v x)).comp x (hd.sub hv))
  refine HasDerivAt.congr_deriv (hfirst.sub hsecond) ?_
  simp only [Function.comp_apply]
  linear_combination (d' - v') * halike

theorem forwardStrike_pos (hK : 0 < K) : 0 < forwardStrike K T r := by
  unfold forwardStrike
  positivity

/-- The two terms of the price change alike. -/
theorem spot_pdf (hS : 0 < S) (hK : 0 < K) (hT : 0 < T) (hσ : 0 < σ) :
    S * pdf (d1 S K T r σ) = forwardStrike K T r * pdf (d2 S K T r σ) := by
  have hroot : 0 < √T := sqrt_pos.2 hT
  have hsq : √T * √T = T := mul_self_sqrt hT.le
  have hmul : d1 S K T r σ * (σ * √T) = log (S / K) + (r + 1 / 2 * σ * σ) * T := by
    rw [d1, div_mul_cancel₀]
    positivity
  have hexp : -(1 / 2) * d2 S K T r σ * d2 S K T r σ =
      -(1 / 2) * d1 S K T r σ * d1 S K T r σ + (log (S / K) + r * T) := by
    rw [d2]
    linear_combination hmul - 1 / 2 * σ ^ 2 * hsq
  have hratio : K * exp (-r * T) * exp (log (S / K) + r * T) = S := by
    rw [exp_add, exp_log (div_pos hS hK)]
    have hone : exp (-(r * T)) * exp (r * T) = 1 := by
      rw [← exp_add, neg_add_cancel, exp_zero]
    rw [neg_mul]
    field_simp
    linear_combination hone
  rw [pdf, pdf, hexp, exp_add, forwardStrike]
  linear_combination -(exp (-(1 / 2) * d1 S K T r σ * d1 S K T r σ) / √(2 * π)) * hratio

theorem hasDerivAt_forwardStrike_time :
    HasDerivAt (fun t => forwardStrike K t r) (-r * forwardStrike K T r) T := by
  have h := ((hasDerivAt_id T).const_mul (-r)).exp.const_mul K
  refine HasDerivAt.congr_deriv h ?_
  rw [forwardStrike]
  simp only [id_eq]
  ring

section Derivatives

variable (hS : 0 < S) (hK : 0 < K) (hT : 0 < T) (hσ : 0 < σ)

include hS hK hT hσ

theorem hasDerivAt_d1_spot :
    HasDerivAt (fun s => d1 s K T r σ) (1 / (S * (σ * √T))) S := by
  have hratio : HasDerivAt (fun s : ℝ => s / K) (1 / K) S := (hasDerivAt_id S).div_const K
  have h := ((hratio.log (div_pos hS hK).ne').add_const ((r + 1 / 2 * σ * σ) * T)).div_const
    (σ * √T)
  refine HasDerivAt.congr_deriv h ?_
  field_simp

theorem hasDerivAt_call_spot : HasDerivAt (fun s => call s K T r σ) (cdf (d1 S K T r σ)) S := by
  have h := hasDerivAt_value (hasDerivAt_id S) (hasDerivAt_const S (forwardStrike K T r))
    (hasDerivAt_d1_spot (r := r) hS hK hT hσ) (hasDerivAt_const S (σ * √T))
    (spot_pdf (r := r) hS hK hT hσ)
  refine HasDerivAt.congr_deriv h ?_
  ring

theorem hasDerivAt_cdf_spot : HasDerivAt (fun s => cdf (d1 s K T r σ))
    (pdf (d1 S K T r σ) / (S * σ * √T)) S := by
  have h := (hasDerivAt_cdf (d1 S K T r σ)).comp S (hasDerivAt_d1_spot (r := r) hS hK hT hσ)
  refine HasDerivAt.congr_deriv h ?_
  field_simp

theorem hasDerivAt_call_vol : HasDerivAt (fun v => call S K T r v)
    (S * pdf (d1 S K T r σ) * √T) σ := by
  have hroot : 0 < √T := sqrt_pos.2 hT
  have hv : HasDerivAt (fun v : ℝ => v * √T) (√T) σ := by
    simpa using (hasDerivAt_id σ).mul_const (√T)
  have hnum : HasDerivAt (fun v : ℝ => log (S / K) + (r + 1 / 2 * v * v) * T) (σ * T) σ := by
    have hsquare := (((hasDerivAt_id σ).const_mul (1 / 2)).mul (hasDerivAt_id σ)).const_add r
    refine HasDerivAt.congr_deriv ((hsquare.mul_const T).const_add (log (S / K))) ?_
    simp only [id_eq]
    ring
  have hd := hnum.div hv (by positivity : σ * √T ≠ 0)
  have h := hasDerivAt_value (hasDerivAt_const σ S) (hasDerivAt_const σ (forwardStrike K T r)) hd hv
    (spot_pdf (r := r) hS hK hT hσ)
  refine HasDerivAt.congr_deriv h ?_
  simp only [zero_mul, sub_zero, zero_add]
  rfl

theorem hasDerivAt_call_time : HasDerivAt (fun t => call S K t r σ)
    (r * forwardStrike K T r * cdf (d2 S K T r σ) + S * pdf (d1 S K T r σ) * (σ / (2 * √T))) T := by
  have hroot : 0 < √T := sqrt_pos.2 hT
  have hv : HasDerivAt (fun t => σ * √t) (σ * (1 / (2 * √T))) T :=
    (hasDerivAt_sqrt hT.ne').const_mul σ
  have hnum : HasDerivAt (fun t : ℝ => log (S / K) + (r + 1 / 2 * σ * σ) * t)
      ((r + 1 / 2 * σ * σ) * 1) T :=
    ((hasDerivAt_id T).const_mul (r + 1 / 2 * σ * σ)).const_add (log (S / K))
  have hd := hnum.div hv (by positivity : σ * √T ≠ 0)
  have h := hasDerivAt_value (hasDerivAt_const T S)
    hasDerivAt_forwardStrike_time hd hv (spot_pdf (r := r) hS hK hT hσ)
  refine HasDerivAt.congr_deriv h ?_
  show 0 * _ - -r * forwardStrike K T r * cdf (d2 S K T r σ) +
    S * pdf (d1 S K T r σ) * (σ * (1 / (2 * √T))) = _
  ring

/-! A put changes as its call does, but for the forward. -/

theorem hasDerivAt_put_spot : HasDerivAt (fun s => put s K T r σ) (cdf (d1 S K T r σ) - 1) S := by
  simp only [put_eq]
  exact (hasDerivAt_call_spot hS hK hT hσ).sub ((hasDerivAt_id S).sub_const _)

theorem hasDerivAt_put_vol : HasDerivAt (fun v => put S K T r v)
    (S * pdf (d1 S K T r σ) * √T) σ := by
  simp only [put_eq]
  exact (hasDerivAt_call_vol hS hK hT hσ).sub_const _

theorem hasDerivAt_put_time : HasDerivAt (fun t => put S K t r σ)
    (-r * forwardStrike K T r * cdf (-d2 S K T r σ) +
      S * pdf (d1 S K T r σ) * (σ / (2 * √T))) T := by
  simp only [put_eq]
  refine HasDerivAt.congr_deriv ((hasDerivAt_call_time hS hK hT hσ).sub
    (hasDerivAt_forwardStrike_time.const_sub S)) ?_
  rw [cdf_neg]
  ring

end Derivatives

/-! ## The price and the volatility -/

/-- The distance of the spot from the discounted strike. -/
theorem log_ratio (hS : 0 < S) (hK : 0 < K) :
    log (S / K) + r * T = log (S / forwardStrike K T r) := by
  have hforward : S / forwardStrike K T r = S / K * exp (r * T) := by
    rw [forwardStrike, neg_mul, exp_neg]
    field_simp
  rw [hforward, log_mul (div_pos hS hK).ne' (exp_pos _).ne', log_exp]

theorem log_ratio_pos_iff (hS : 0 < S) (hK : 0 < K) :
    0 < log (S / K) + r * T ↔ forwardStrike K T r < S := by
  have hk : 0 < forwardStrike K T r := forwardStrike_pos hK
  rw [log_ratio hS hK, log_pos_iff (div_pos hS hk).le, one_lt_div hk]

theorem eq_of_log_ratio (hS : 0 < S) (hK : 0 < K) (hzero : log (S / K) + r * T = 0) :
    S = forwardStrike K T r := by
  have hk : 0 < forwardStrike K T r := forwardStrike_pos hK
  rw [log_ratio hS hK] at hzero
  rw [← div_eq_one_iff_eq hk.ne']
  exact eq_one_of_pos_of_log_eq_zero (div_pos hS hk) hzero

/-- The argument of the first term, taken apart. -/
theorem d1_eq (hT : 0 < T) {v : ℝ} (hv : 0 < v) :
    d1 S K T r v = (log (S / K) + r * T) / √T * v⁻¹ + √T / 2 * v := by
  have hroot : 0 < √T := sqrt_pos.2 hT
  have hsq : √T * √T = T := mul_self_sqrt hT.le
  rw [d1]
  field_simp
  linear_combination (-(v ^ 2)) * hsq

theorem d2_eq (hT : 0 < T) {v : ℝ} (hv : 0 < v) :
    d2 S K T r v = (log (S / K) + r * T) / √T * v⁻¹ + -(√T / 2) * v := by
  rw [d2, d1_eq hT hv]
  ring

/-- What a term that is linear in the volatility vanishes to. -/
theorem tendsto_linear (c : ℝ) : Tendsto (fun v : ℝ => c * v) (𝓝[>] 0) (𝓝 0) := by
  have h : Tendsto (fun v : ℝ => c * v) (𝓝 0) (𝓝 (c * 0)) := (continuous_const_mul c).tendsto 0
  rw [mul_zero] at h
  exact h.mono_left nhdsWithin_le_nhds

/-- Where both arguments go to one end, the price goes to the terms weighed alike. -/
theorem tendsto_call_of {F : Filter ℝ} {c : ℝ} (hT : 0 < T) (hcdf : Tendsto cdf F (𝓝 c))
    (h : ∀ m : ℝ, Tendsto (fun v => (log (S / K) + r * T) / √T * v⁻¹ + m * v) (𝓝[>] 0) F) :
    Tendsto (fun v => call S K T r v) (𝓝[>] 0) (𝓝 (S * c - forwardStrike K T r * c)) := by
  have hfirst : Tendsto (fun v => d1 S K T r v) (𝓝[>] 0) F :=
    (h (√T / 2)).congr' (eventually_mem_nhdsWithin.mono fun v hv => (d1_eq hT hv).symm)
  have hsecond : Tendsto (fun v => d2 S K T r v) (𝓝[>] 0) F :=
    (h (-(√T / 2))).congr' (eventually_mem_nhdsWithin.mono fun v hv => (d2_eq hT hv).symm)
  exact ((hcdf.comp hfirst).const_mul S).sub ((hcdf.comp hsecond).const_mul (forwardStrike K T r))

section Bounds

variable (hS : 0 < S) (hK : 0 < K) (hT : 0 < T)

include hS hK hT

/-- **The price of a call rises with the volatility.** -/
theorem strictMonoOn_call : StrictMonoOn (fun v => call S K T r v) (Set.Ioi 0) := by
  refine strictMonoOn_of_deriv_pos (convex_Ioi 0)
    (fun v hv => (hasDerivAt_call_vol hS hK hT hv).continuousAt.continuousWithinAt) fun v hv => ?_
  rw [interior_Ioi] at hv
  rw [(hasDerivAt_call_vol hS hK hT hv).deriv]
  have hpdf := pdf_pos (d1 S K T r v)
  have hroot := sqrt_pos.2 hT
  positivity

/-- **Without volatility a call is worth what the spot exceeds the discounted strike by.** -/
theorem tendsto_call : Tendsto (fun v => call S K T r v) (𝓝[>] 0)
    (𝓝 (max (S - forwardStrike K T r) 0)) := by
  have hroot : 0 < √T := sqrt_pos.2 hT
  rcases lt_trichotomy (log (S / K) + r * T) 0 with hneg | hzero | hpos
  · -- out of the money both arguments go to minus infinity
    have hle : S ≤ forwardStrike K T r :=
      not_lt.1 fun h => hneg.asymm ((log_ratio_pos_iff hS hK).2 h)
    have h := tendsto_call_of (S := S) (K := K) (r := r) hT tendsto_cdf_atBot fun m =>
      (tendsto_inv_nhdsGT_zero.const_mul_atTop_of_neg (div_neg_of_neg_of_pos hneg hroot)).atBot_add
        (tendsto_linear m)
    rw [mul_zero, mul_zero, sub_zero] at h
    rwa [max_eq_right (sub_nonpos.2 hle)]
  · -- at the forward both arguments vanish
    have heq : S = forwardStrike K T r := eq_of_log_ratio hS hK hzero
    have h := tendsto_call_of (S := S) (K := K) (r := r) hT (continuous_cdf.tendsto 0) fun m => by
      simp only [hzero, zero_div, zero_mul, zero_add]
      exact tendsto_linear m
    rw [← heq, sub_self] at h
    rwa [← heq, sub_self, max_self]
  · have hlt : forwardStrike K T r < S := (log_ratio_pos_iff hS hK).1 hpos
    have h := tendsto_call_of (S := S) (K := K) (r := r) hT tendsto_cdf_atTop fun m =>
      (tendsto_inv_nhdsGT_zero.const_mul_atTop (div_pos hpos hroot)).atTop_add (tendsto_linear m)
    rw [mul_one, mul_one] at h
    rwa [max_eq_left (sub_nonneg.2 hlt.le)]

/-- **With volatility a call is worth more than that.** -/
theorem intrinsic_lt_call (hσ : 0 < σ) : max (S - forwardStrike K T r) 0 < call S K T r σ := by
  have hmono := strictMonoOn_call (r := r) hS hK hT
  have hhalf : max (S - forwardStrike K T r) 0 ≤ call S K T r (σ / 2) := by
    refine le_of_tendsto (tendsto_call hS hK hT) ?_
    filter_upwards [Ioo_mem_nhdsGT (half_pos hσ)] with v hv
    exact (hmono hv.1 (half_pos hσ) hv.2).le
  exact hhalf.trans_lt (hmono (half_pos hσ) hσ (half_lt_self hσ))

/-- What the volatility adds is at most in proportion to it. -/
theorem call_le (hσ : 0 < σ) :
    call S K T r σ ≤ max (S - forwardStrike K T r) 0 + S * pdf 0 * √T * σ := by
  have hslope : ∀ v, 0 < v → S * pdf (d1 S K T r v) * √T ≤ S * pdf 0 * √T := fun v _ =>
    mul_le_mul_of_nonneg_right (mul_le_mul_of_nonneg_left (pdf_le_pdf_zero _) hS.le) (sqrt_nonneg T)
  have hpdf := pdf_pos 0
  have hsmall : call S K T r σ - S * pdf 0 * √T * σ ≤ max (S - forwardStrike K T r) 0 := by
    refine ge_of_tendsto (tendsto_call hS hK hT) ?_
    filter_upwards [Ioo_mem_nhdsGT hσ] with v hv
    have hderiv : ∀ w ∈ Set.Icc v σ, HasDerivAt (fun u => call S K T r u)
        (S * pdf (d1 S K T r w) * √T) w := fun w hw =>
      hasDerivAt_call_vol hS hK hT (hv.1.trans_le hw.1)
    have hle := (convex_Icc v σ).image_sub_le_mul_sub_of_deriv_le
      (fun w hw => (hderiv w hw).continuousAt.continuousWithinAt)
      (fun w hw => (hderiv w (interior_subset hw)).differentiableAt.differentiableWithinAt)
      (fun w hw => by
        rw [(hderiv w (interior_subset hw)).deriv]
        exact hslope w (hv.1.trans_le (interior_subset hw).1))
      v ⟨le_rfl, hv.2.le⟩ σ ⟨hv.2.le, le_rfl⟩ hv.2.le
    have hpos : 0 ≤ S * pdf 0 * √T * v := by
      have := hv.1
      positivity
    rw [mul_sub] at hle
    linarith
  linarith

omit hS hK in
/-- **With ever more volatility a call is worth its spot.** -/
theorem tendsto_call_atTop : Tendsto (fun v => call S K T r v) atTop (𝓝 S) := by
  have hroot : 0 < √T := sqrt_pos.2 hT
  have hvanish : Tendsto (fun v : ℝ => (log (S / K) + r * T) / √T * v⁻¹) atTop (𝓝 0) := by
    have h := tendsto_inv_atTop_zero.const_mul ((log (S / K) + r * T) / √T)
    rwa [mul_zero] at h
  have hfirst : Tendsto (fun v => d1 S K T r v) atTop atTop :=
    (hvanish.add_atTop (tendsto_id.const_mul_atTop (half_pos hroot))).congr'
      ((eventually_gt_atTop 0).mono fun v hv => (d1_eq hT hv).symm)
  have hsecond : Tendsto (fun v => d2 S K T r v) atTop atBot :=
    (hvanish.add_atBot (tendsto_id.const_mul_atTop_of_neg (neg_neg_of_pos (half_pos hroot)))).congr'
      ((eventually_gt_atTop 0).mono fun v hv => (d2_eq hT hv).symm)
  have h := ((tendsto_cdf_atTop.comp hfirst).const_mul S).sub
    ((tendsto_cdf_atBot.comp hsecond).const_mul (forwardStrike K T r))
  rwa [mul_one, mul_zero, sub_zero] at h

/-- **Every price between the two ends is that of a volatility.** -/
theorem exists_vol {p : ℝ} (hlow : max (S - forwardStrike K T r) 0 < p) (hhigh : p < S) :
    ∃ v, 0 < v ∧ call S K T r v = p := by
  have hmono := strictMonoOn_call (r := r) hS hK hT
  obtain ⟨low, hlowPrice, hlowPos⟩ : ∃ v, call S K T r v < p ∧ 0 < v :=
    (((tendsto_call hS hK hT).eventually_lt_const hlow).and self_mem_nhdsWithin).exists
  obtain ⟨high, hhighPrice, hhighPos⟩ : ∃ v, p < call S K T r v ∧ 0 < v :=
    (((tendsto_call_atTop hT).eventually_const_lt hhigh).and (eventually_gt_atTop 0)).exists
  have hle : low ≤ high :=
    (hmono.lt_iff_lt hlowPos hhighPos).1 (hlowPrice.trans hhighPrice) |>.le
  have hcontinuous : ContinuousOn (fun v => call S K T r v) (Set.Icc low high) := fun v hv =>
    (hasDerivAt_call_vol hS hK hT (hlowPos.trans_le hv.1)).continuousAt.continuousWithinAt
  obtain ⟨v, hv, heq⟩ := intermediate_value_Icc hle hcontinuous ⟨hlowPrice.le, hhighPrice.le⟩
  exact ⟨v, hlowPos.trans_le hv.1, heq⟩

omit hT in
theorem call_lt_spot : call S K T r σ < S := by
  have hfirst := cdf_lt_one (d1 S K T r σ)
  have hsecond := cdf_pos (d2 S K T r σ)
  have hk : 0 < forwardStrike K T r := forwardStrike_pos hK
  have hterm := mul_pos hk hsecond
  rw [call]
  nlinarith

end Bounds

end LognormalOption

end
