import BifrostTrade.Pricing.BlackScholes

/-!
# Black–Scholes over the real numbers

On positive input both conventions compute the closed form of a lognormal option, so the greeks are
the derivatives of the price, the price keeps between its bounds and rises with the volatility, and
put and call keep their parity.  A market that some volatility prices is between the bounds, has one
volatility, and is never refused by the discounted floor; what a solver answers prices the market
within its tolerance.
-/

noncomputable section

open Real

namespace Pricing

open scoped Numerals

/-- The functions of `math`, exactly. -/
def realMath : MathFunctions ℝ := ⟨π, exp, log, sqrt, Normal.erf⟩

/-- The closed form of the side. -/
def closedPrice (S K T r sigma : ℝ) (right : String) : ℝ :=
  if isCall (some right) then LognormalOption.call S K T r sigma
  else LognormalOption.put S K T r sigma

/-- The slope of the closed form by the spot. -/
def closedDelta (S K T r sigma : ℝ) (right : String) : ℝ :=
  if isCall (some right) then Normal.cdf (LognormalOption.d1 S K T r sigma)
  else Normal.cdf (LognormalOption.d1 S K T r sigma) - 1

/-- The slope of its delta by the spot. -/
def closedGamma (S K T r sigma : ℝ) : ℝ :=
  Normal.pdf (LognormalOption.d1 S K T r sigma) / (S * sigma * √T)

/-- Its slope by the volatility. -/
def closedVega (S K T r sigma : ℝ) : ℝ :=
  S * Normal.pdf (LognormalOption.d1 S K T r sigma) * √T

/-- The change of the price with the time to the expiry, a year. -/
def closedTheta (S K T r sigma : ℝ) (right : String) : ℝ :=
  if isCall (some right) then
    r * LognormalOption.forwardStrike K T r * Normal.cdf (LognormalOption.d2 S K T r sigma) +
      closedVega S K T r sigma * (sigma / (2 * T))
  else
    -r * LognormalOption.forwardStrike K T r * Normal.cdf (-LognormalOption.d2 S K T r sigma) +
      closedVega S K T r sigma * (sigma / (2 * T))

/-! ## The code on positive input -/

theorem normCdf_realMath (x : ℝ) : normCdf realMath x = Normal.cdf x := rfl

theorem normPdf_realMath (x : ℝ) : normPdf realMath x = Normal.pdf x := rfl

theorem divide_of_ne {x y : ℝ} (h : y ≠ 0) : divide x y = .ok (x / y) := if_neg h

theorem mathLog_of_pos {x : ℝ} (h : 0 < x) : mathLog realMath x = .ok (log x) := if_neg h.not_ge

theorem mathSqrt_of_nonneg {x : ℝ} (h : 0 ≤ x) : mathSqrt realMath x = .ok (√x) := if_neg h.not_gt

section Positive

variable {S K T r sigma : ℝ} (hS : 0 < S) (hK : 0 < K) (hT : 0 < T) (hsigma : 0 < sigma)
  (right : String) (strict : Bool)

include hS hK hT hsigma

theorem not_degenerate : degenerate S K T sigma = false := by
  simp [degenerate, hS, hK, hT, hsigma]

theorem d1_of_pos : d1 realMath S K T r sigma strict = .ok (LognormalOption.d1 S K T r sigma) := by
  have hroot : 0 < √T := sqrt_pos.2 hT
  rw [d1, not_degenerate hS hK hT hsigma, Bool.and_false, if_neg Bool.false_ne_true,
    divide_of_ne hK.ne']
  simp only [bind, Except.bind, mathLog_of_pos (div_pos hS hK), mathSqrt_of_nonneg hT.le,
    divide_of_ne (mul_pos hsigma hroot).ne', LognormalOption.d1]

theorem price_of_pos :
    price realMath S K T r sigma right strict = .ok (closedPrice S K T r sigma right) := by
  rw [price, decide_eq_false hT.not_ge, Bool.and_false, if_neg Bool.false_ne_true,
    d1_of_pos hS hK hT hsigma, mathSqrt_of_nonneg hT.le]
  simp only [bind, Except.bind, closedPrice]
  split
  · rfl
  · rfl

theorem erfDelta_of_pos :
    erfDelta realMath S K T r sigma right strict = .ok (closedDelta S K T r sigma right) := by
  rw [erfDelta, decide_eq_false hT.not_ge, decide_eq_false hsigma.not_ge, Bool.or_false,
    Bool.and_false, if_neg Bool.false_ne_true, d1_of_pos hS hK hT hsigma]
  rfl

theorem erfGamma_of_pos :
    erfGamma realMath S K T r sigma strict = .ok (closedGamma S K T r sigma) := by
  have hroot : 0 < √T := sqrt_pos.2 hT
  rw [erfGamma, not_degenerate hS hK hT hsigma, Bool.and_false, if_neg Bool.false_ne_true,
    d1_of_pos hS hK hT hsigma, mathSqrt_of_nonneg hT.le]
  simp only [bind, Except.bind, divide_of_ne (mul_pos (mul_pos hS hsigma) hroot).ne']
  rfl

theorem vega_of_pos : vega realMath S K T r sigma strict = .ok (closedVega S K T r sigma) := by
  rw [vega, not_degenerate hS hK hT hsigma, Bool.and_false, if_neg Bool.false_ne_true,
    d1_of_pos hS hK hT hsigma, mathSqrt_of_nonneg hT.le]
  rfl

theorem theta_of_pos :
    theta realMath S K T r sigma right strict = .ok (-closedTheta S K T r sigma right / 365) := by
  have hroot : 0 < √T := sqrt_pos.2 hT
  rw [theta, not_degenerate hS hK hT hsigma, Bool.and_false, if_neg Bool.false_ne_true,
    d1_of_pos hS hK hT hsigma, mathSqrt_of_nonneg hT.le]
  have hdecay : -(S * normPdf realMath (LognormalOption.d1 S K T r sigma) * sigma) / (2 * √T) =
      -(closedVega S K T r sigma * (sigma / (2 * T))) := by
    rw [normPdf_realMath, closedVega]
    field_simp
    rw [sq_sqrt hT.le]
  simp only [bind, Except.bind, divide_of_ne (mul_pos two_pos hroot).ne', hdecay, closedTheta,
    normCdf_realMath]
  split
  · refine congrArg (fun x : ℝ => Except.ok (x / 365)) ?_
    show _ - r * K * exp (-r * T) * Normal.cdf (LognormalOption.d2 S K T r sigma) = _
    rw [LognormalOption.forwardStrike]
    ring
  · refine congrArg (fun x : ℝ => Except.ok (x / 365)) ?_
    show _ + r * K * exp (-r * T) * Normal.cdf (-LognormalOption.d2 S K T r sigma) = _
    rw [LognormalOption.forwardStrike]
    ring

theorem greeks_of_pos : greeks realMath S K T r sigma right strict =
    .ok ⟨closedDelta S K T r sigma right, closedGamma S K T r sigma,
      -closedTheta S K T r sigma right / 365, closedVega S K T r sigma * (1 / 100)⟩ := by
  rw [greeks, erfDelta_of_pos hS hK hT hsigma, erfGamma_of_pos hS hK hT hsigma,
    theta_of_pos hS hK hT hsigma, vega_of_pos hS hK hT hsigma]
  rfl

/-! ## The greeks -/

theorem hasDerivAt_closedPrice_spot :
    HasDerivAt (fun s => closedPrice s K T r sigma right) (closedDelta S K T r sigma right) S := by
  unfold closedPrice closedDelta
  split
  · exact LognormalOption.hasDerivAt_call_spot hS hK hT hsigma
  · exact LognormalOption.hasDerivAt_put_spot hS hK hT hsigma

theorem hasDerivAt_closedDelta_spot :
    HasDerivAt (fun s => closedDelta s K T r sigma right) (closedGamma S K T r sigma) S := by
  unfold closedDelta closedGamma
  split
  · exact LognormalOption.hasDerivAt_cdf_spot hS hK hT hsigma
  · exact (LognormalOption.hasDerivAt_cdf_spot hS hK hT hsigma).sub_const 1

theorem hasDerivAt_closedPrice_vol :
    HasDerivAt (fun v => closedPrice S K T r v right) (closedVega S K T r sigma) sigma := by
  unfold closedPrice closedVega
  split
  · exact LognormalOption.hasDerivAt_call_vol hS hK hT hsigma
  · exact LognormalOption.hasDerivAt_put_vol hS hK hT hsigma

theorem hasDerivAt_closedPrice_time :
    HasDerivAt (fun t => closedPrice S K t r sigma right) (closedTheta S K T r sigma right) T := by
  have hvega : closedVega S K T r sigma * (sigma / (2 * T)) =
      S * Normal.pdf (LognormalOption.d1 S K T r sigma) * (sigma / (2 * √T)) := by
    have hroot : 0 < √T := sqrt_pos.2 hT
    rw [closedVega]
    field_simp
    rw [sq_sqrt hT.le]
  unfold closedPrice closedTheta
  rw [hvega]
  split
  · exact LognormalOption.hasDerivAt_call_time hS hK hT hsigma
  · exact LognormalOption.hasDerivAt_put_time hS hK hT hsigma

/-- **The greeks are the derivatives of the price**, under both conventions: delta and gamma by
the spot, vega by the volatility in points, theta by the days that pass. -/
theorem greeks_derivatives : ∃ g, greeks realMath S K T r sigma right strict = .ok g ∧
    ∃ p d : ℝ → ℝ → ℝ → ℝ,
      (∀ s t v, 0 < s → 0 < t → 0 < v → price realMath s K t r v right strict = .ok (p s t v) ∧
        erfDelta realMath s K t r v right strict = .ok (d s t v)) ∧
      HasDerivAt (fun s => p s T sigma) g.delta S ∧
      HasDerivAt (fun s => d s T sigma) g.gamma S ∧
      HasDerivAt (fun v => p S T v) (100 * g.vega) sigma ∧
      HasDerivAt (fun t => p S t sigma) (-365 * g.theta) T := by
  refine ⟨_, greeks_of_pos hS hK hT hsigma right strict, fun s t v => closedPrice s K t r v right,
    fun s t v => closedDelta s K t r v right, fun s t v hs ht hv =>
      ⟨price_of_pos hs hK ht hv right strict, erfDelta_of_pos hs hK ht hv right strict⟩,
    hasDerivAt_closedPrice_spot hS hK hT hsigma right,
    hasDerivAt_closedDelta_spot hS hK hT hsigma right, ?_, ?_⟩
  · refine HasDerivAt.congr_deriv (hasDerivAt_closedPrice_vol hS hK hT hsigma right) ?_
    ring
  · refine HasDerivAt.congr_deriv (hasDerivAt_closedPrice_time hS hK hT hsigma right) ?_
    ring

end Positive

theorem greeks_derivatives_atTheMoney : ∃ g, greeks realMath 100 100 1 0 1 "C" true = .ok g ∧
    ∃ p d : ℝ → ℝ → ℝ → ℝ,
      (∀ s t v, 0 < s → 0 < t → 0 < v → price realMath s 100 t 0 v "C" true = .ok (p s t v) ∧
        erfDelta realMath s 100 t 0 v "C" true = .ok (d s t v)) ∧
      HasDerivAt (fun s => p s 1 1) g.delta 100 ∧
      HasDerivAt (fun s => d s 1 1) g.gamma 100 ∧
      HasDerivAt (fun v => p 100 1 v) (100 * g.vega) 1 ∧
      HasDerivAt (fun t => p 100 t 1) (-365 * g.theta) 1 :=
  greeks_derivatives (by norm_num) (by norm_num) (by norm_num) (by norm_num) "C" true

/-! ## The range of the prices -/

/-- What a price stays below: a call is worth less than the share, a put less than the strike it
is paid at the expiry. -/
def priceCap (S K T r : ℝ) (right : String) : ℝ :=
  if isCall (some right) then S else LognormalOption.forwardStrike K T r

theorem discountedIntrinsic_call {right : String} (h : isCall (some right) = true)
    (S K T r : ℝ) : discountedIntrinsic realMath S K T r right =
      max (S - LognormalOption.forwardStrike K T r) 0 := by
  rw [discountedIntrinsic, if_pos h, max_comm]
  rfl

theorem discountedIntrinsic_put {right : String} (h : ¬ isCall (some right) = true)
    (S K T r : ℝ) : discountedIntrinsic realMath S K T r right =
      max (S - LognormalOption.forwardStrike K T r) 0 -
        (S - LognormalOption.forwardStrike K T r) := by
  rw [discountedIntrinsic, if_neg h, eq_sub_iff_add_eq, max_comm (S - _), ← max_add_add_right,
    zero_add]
  show max (S - LognormalOption.forwardStrike K T r)
    (LognormalOption.forwardStrike K T r - S + (S - LognormalOption.forwardStrike K T r)) = _
  rw [sub_add_sub_cancel, sub_self, max_comm]

section Range

variable {S K T r : ℝ} (hS : 0 < S) (hK : 0 < K) (hT : 0 < T) (right : String)

include hS hK hT

theorem strictMonoOn_closedPrice :
    StrictMonoOn (fun v => closedPrice S K T r v right) (Set.Ioi 0) := by
  have hcall := LognormalOption.strictMonoOn_call (r := r) hS hK hT
  unfold closedPrice
  split
  · exact hcall
  · intro v hv w hw hlt
    simp only [LognormalOption.put_eq]
    exact sub_lt_sub_right (hcall hv hw hlt) _

theorem closedPrice_bounds {sigma : ℝ} (hsigma : 0 < sigma) :
    discountedIntrinsic realMath S K T r right < closedPrice S K T r sigma right ∧
      closedPrice S K T r sigma right < priceCap S K T r right := by
  have hlow := LognormalOption.intrinsic_lt_call (r := r) hS hK hT hsigma
  have hhigh : LognormalOption.call S K T r sigma < S := LognormalOption.call_lt_spot hS hK
  by_cases h : isCall (some right) = true
  · rw [discountedIntrinsic_call h, closedPrice, priceCap, if_pos h, if_pos h]
    exact ⟨hlow, hhigh⟩
  · rw [discountedIntrinsic_put h, closedPrice, priceCap, if_neg h, if_neg h,
      LognormalOption.put_eq]
    exact ⟨sub_lt_sub_right hlow _, by linarith⟩

theorem exists_closedPrice {market : ℝ} (hlow : discountedIntrinsic realMath S K T r right < market)
    (hhigh : market < priceCap S K T r right) :
    ∃ sigma, 0 < sigma ∧ closedPrice S K T r sigma right = market := by
  by_cases h : isCall (some right) = true
  · rw [discountedIntrinsic_call h] at hlow
    rw [priceCap, if_pos h] at hhigh
    simp only [closedPrice, if_pos h]
    exact LognormalOption.exists_vol hS hK hT hlow hhigh
  · rw [discountedIntrinsic_put h] at hlow
    rw [priceCap, if_neg h] at hhigh
    obtain ⟨sigma, hsigma, heq⟩ := LognormalOption.exists_vol (r := r)
      (p := market + (S - LognormalOption.forwardStrike K T r)) hS hK hT (by linarith) (by linarith)
    refine ⟨sigma, hsigma, ?_⟩
    rw [closedPrice, if_neg h, LognormalOption.put_eq, heq, add_sub_cancel_right]

/-- **A market is the price of a volatility, and then of one, exactly within the bounds**: above
the discounted intrinsic value that the research solver takes for its floor, and below the share or
the discounted strike. -/
theorem market_priced (market : ℝ) (strict : Bool) :
    (discountedIntrinsic realMath S K T r right < market ∧ market < priceCap S K T r right →
      ∃! sigma, 0 < sigma ∧ price realMath S K T r sigma right strict = .ok market) ∧
    (∀ sigma, 0 < sigma → price realMath S K T r sigma right strict = .ok market →
      discountedIntrinsic realMath S K T r right < market ∧ market < priceCap S K T r right) := by
  constructor
  · rintro ⟨hlow, hhigh⟩
    obtain ⟨sigma, hsigma, heq⟩ := exists_closedPrice hS hK hT right hlow hhigh
    refine ⟨sigma, ⟨hsigma, ?_⟩, ?_⟩
    · rw [price_of_pos hS hK hT hsigma, heq]
    · rintro v ⟨hv, hprice⟩
      rw [price_of_pos hS hK hT hv, Except.ok.injEq, ← heq] at hprice
      exact (strictMonoOn_closedPrice hS hK hT right).injOn hv hsigma hprice
  · intro sigma hsigma hprice
    rw [price_of_pos hS hK hT hsigma, Except.ok.injEq] at hprice
    rw [← hprice]
    exact closedPrice_bounds hS hK hT right hsigma

end Range

theorem market_priced_put :
    (discountedIntrinsic realMath 90 100 1 0 "P" < 20 ∧ 20 < priceCap 90 100 1 0 "P" →
      ∃! sigma, 0 < sigma ∧ price realMath 90 100 1 0 sigma "P" true = .ok 20) ∧
    (∀ sigma, 0 < sigma → price realMath 90 100 1 0 sigma "P" true = .ok 20 →
      discountedIntrinsic realMath 90 100 1 0 "P" < 20 ∧ 20 < priceCap 90 100 1 0 "P") :=
  market_priced (by norm_num) (by norm_num) (by norm_num) "P" 20 true

/-! ## Parity -/

/-- The guarded formula never raises. -/
theorem d1_guarded (S K T r sigma : ℝ) : ∃ x, d1 realMath S K T r sigma false = .ok x := by
  by_cases hdegenerate : degenerate S K T sigma = true
  · exact ⟨0, by rw [d1, hdegenerate]; rfl⟩
  · simp only [degenerate, Bool.or_eq_true, decide_eq_true_eq, not_or, not_le] at hdegenerate
    obtain ⟨⟨⟨hT, hsigma⟩, hS⟩, hK⟩ := hdegenerate
    exact ⟨_, d1_of_pos hS hK hT hsigma false⟩

/-- Call and put of one strike. -/
structure Parity (S K T r sigma : ℝ) (callRight putRight : String) : Prop where
  price : ∃ c p, price realMath S K T r sigma callRight false = .ok c ∧
    price realMath S K T r sigma putRight false = .ok p ∧
    c - p = if T ≤ 0 then S - K else S - K * exp (-r * T)
  delta : ∃ c p, erfDelta realMath S K T r sigma callRight false = .ok c ∧
    erfDelta realMath S K T r sigma putRight false = .ok p ∧ c - p = 1
  /-- At the money neither side is in it once there is no time or volatility left. -/
  itm : ∃ c p, probItm realMath S K T r sigma callRight false = .ok c ∧
    probItm realMath S K T r sigma putRight false = .ok p ∧
    c + p = if (T ≤ 0 ∨ sigma ≤ 0) ∧ S = K then 0 else 1

section Parity

variable {callRight putRight : String} (hcall : isCall (some callRight) = true)
  (hput : isCall (some putRight) = false) (S K T r sigma : ℝ)

include hcall hput

theorem price_parity : ∃ c p, price realMath S K T r sigma callRight false = .ok c ∧
    price realMath S K T r sigma putRight false = .ok p ∧
    c - p = if T ≤ 0 then S - K else S - K * exp (-r * T) := by
  by_cases hT : T ≤ 0
  · refine ⟨max (S - K) 0, max (K - S) 0, ?_, ?_, ?_⟩
    · rw [price, intrinsic, hcall, decide_eq_true hT]
      rfl
    · rw [price, intrinsic, hput, decide_eq_true hT]
      rfl
    · rw [if_pos hT, ← neg_sub S K]
      exact max_zero_sub_max_neg_zero_eq_self (S - K)
  · obtain ⟨x, hx⟩ := d1_guarded S K T r sigma
    refine ⟨S * Normal.cdf x - K * exp (-r * T) * Normal.cdf (x - sigma * √T),
      K * exp (-r * T) * Normal.cdf (-(x - sigma * √T)) - S * Normal.cdf (-x), ?_, ?_, ?_⟩
    · rw [price, hx, hcall, decide_eq_false hT, mathSqrt_of_nonneg (not_le.1 hT).le]
      rfl
    · rw [price, hx, hput, decide_eq_false hT, mathSqrt_of_nonneg (not_le.1 hT).le]
      rfl
    · rw [if_neg hT, Normal.cdf_neg, Normal.cdf_neg]
      ring

theorem delta_parity : ∃ c p, erfDelta realMath S K T r sigma callRight false = .ok c ∧
    erfDelta realMath S K T r sigma putRight false = .ok p ∧ c - p = 1 := by
  by_cases hends : (decide (T ≤ 0) || decide (sigma ≤ 0)) = true
  · refine ⟨if K < S then 1 else if S = K then 1 / 2 else 0,
      if S < K then -1 else if S = K then -(1 / 2) else 0, ?_, ?_, ?_⟩
    · rw [erfDelta, hends, hcall]
      rfl
    · rw [erfDelta, hends, hput]
      rfl
    · rcases lt_trichotomy S K with hlt | heq | hgt
      · rw [if_neg hlt.not_gt, if_neg hlt.ne, if_pos hlt]
        norm_num
      · rw [if_neg (heq.le.not_gt), if_pos heq, if_neg heq.ge.not_gt, if_pos heq]
        norm_num
      · rw [if_pos hgt, if_neg hgt.not_gt, if_neg hgt.ne']
        norm_num
  · obtain ⟨x, hx⟩ := d1_guarded S K T r sigma
    rw [Bool.not_eq_true] at hends
    refine ⟨Normal.cdf x, Normal.cdf x - 1, ?_, ?_, sub_sub_cancel _ _⟩
    · rw [erfDelta, hends, hx, hcall]
      rfl
    · rw [erfDelta, hends, hx, hput]
      rfl

theorem itm_parity : ∃ c p, probItm realMath S K T r sigma callRight false = .ok c ∧
    probItm realMath S K T r sigma putRight false = .ok p ∧
    c + p = if (T ≤ 0 ∨ sigma ≤ 0) ∧ S = K then 0 else 1 := by
  by_cases hends : T ≤ 0 ∨ sigma ≤ 0
  · have hbool : (decide (T ≤ 0) || decide (sigma ≤ 0)) = true := by
      rwa [Bool.or_eq_true, decide_eq_true_eq, decide_eq_true_eq]
    refine ⟨if K < S then 1 else 0, if S < K then 1 else 0, ?_, ?_, ?_⟩
    · rw [probItm, hbool, hcall]
      rfl
    · rw [probItm, hbool, hput]
      rfl
    · rcases lt_trichotomy S K with hlt | heq | hgt
      · rw [if_neg hlt.not_gt, if_pos hlt, if_neg fun h => hlt.ne h.2, zero_add]
      · rw [if_neg heq.le.not_gt, if_neg heq.ge.not_gt, if_pos ⟨hends, heq⟩, zero_add]
      · rw [if_pos hgt, if_neg hgt.not_gt, if_neg fun h => hgt.ne' h.2, add_zero]
  · have hbool : (decide (T ≤ 0) || decide (sigma ≤ 0)) = false := by
      rwa [← Bool.not_eq_true, Bool.or_eq_true, decide_eq_true_eq, decide_eq_true_eq]
    have hT : 0 < T := not_le.1 fun h => hends (.inl h)
    obtain ⟨x, hx⟩ := d1_guarded S K T r sigma
    refine ⟨Normal.cdf (x - sigma * √T), Normal.cdf (-(x - sigma * √T)), ?_, ?_, ?_⟩
    · rw [probItm, hbool, hx, hcall, mathSqrt_of_nonneg hT.le]
      rfl
    · rw [probItm, hbool, hx, hput, mathSqrt_of_nonneg hT.le]
      rfl
    · rw [if_neg fun h => hends h.1, Normal.cdf_neg, add_sub_cancel]

end Parity

/-- **Put and call keep their parity** on every input of the guarded convention, none of which
raises: the prices differ by the forward, the deltas by one share, and one of the two ends in the
money. -/
theorem guarded_parity (S K T r sigma : ℝ) (callRight putRight : String)
    (hcall : isCall (some callRight) = true) (hput : isCall (some putRight) = false) :
    Parity S K T r sigma callRight putRight where
  price := price_parity hcall hput S K T r sigma
  delta := delta_parity hcall hput S K T r sigma
  itm := itm_parity hcall hput S K T r sigma

theorem guarded_parity_expired : Parity 90 100 0 0 1 "Call" "P" :=
  guarded_parity 90 100 0 0 1 "Call" "P" (by decide) (by decide)

end Pricing

end
