import BifrostTrade.Lib.Refusals
import BifrostTrade.Pricing.BlackScholesLaw

/-!
# The solvers of the implied volatility

Each solver walks from one volatility to the next and accepts the last one only after it has priced
it again, so what it answers prices the market within its tolerance however the walk went
(`impliedVol_law`).  That rests on the bounds the walk keeps and on nothing of the formulas; that
no walk raises rests on the guarded formulas.
-/

namespace Pricing

open Py
open scoped Numerals

/-! ## The walks -/

section Walks

variable {F : Type} [Field F] [LinearOrder F] {m : MathFunctions F} {market S K T r : F}
  {right : String}

/-- The volatilities that a walk visits. -/
def InRange (sigma : F) : Prop := 1 / 1000 ≤ sigma ∧ sigma ≤ 5

/-- The volatility prices the market that closely. -/
def Prices (m : MathFunctions F) (market S K T r : F) (right : String) (strict : Bool)
    (close : F → Prop) (sigma : F) : Prop :=
  ∃ p, price m S K T r sigma right strict = .ok p ∧ close |p - market|

theorem le_newtonStep (sigma diff v : F) : 1 / 1000 ≤ newtonStep sigma diff v := by
  rw [newtonStep]
  split
  · exact le_rfl
  · exact (not_le.1 ‹_›).le

theorem accept_eq_some {sigma answer last : F}
    (h : (if |last - market| < 1 / 20 then some sigma else none) = some answer) :
    answer = sigma ∧ |last - market| < 1 / 20 := by
  split at h
  · exact ⟨(Option.some.inj h).symm, ‹_›⟩
  · cases h

/-- One turn of the walk of the Positions model: it stops, or goes on within the range. -/
theorem positionsSteps_succ {tol sigma answer : F} {n : ℕ}
    (h : positionsSteps m market S K T r right tol (n + 1) sigma = .ok (some answer)) :
    (answer = sigma ∧ (Prices m market S K T r right false (· < 1 / 20) sigma ∨
      Prices m market S K T r right false (· < tol) sigma)) ∨
    ∃ next, InRange next ∧
      positionsSteps m market S K T r right tol n next = .ok (some answer) := by
  obtain ⟨p, hp, h⟩ := bind_ok_iff.1 h
  obtain ⟨first, hfirst, h⟩ := bind_ok_iff.1 h
  obtain ⟨root, hroot, h⟩ := bind_ok_iff.1 h
  dsimp only at h
  split at h
  · obtain ⟨last, hlast, h⟩ := bind_ok_iff.1 h
    obtain ⟨heq, hclose⟩ := accept_eq_some (Except.ok.inj h)
    exact .inl ⟨heq, .inl ⟨last, hlast, hclose⟩⟩
  · split at h
    · exact .inl ⟨(Option.some.inj (Except.ok.inj h)).symm, .inr ⟨p, hp, ‹_›⟩⟩
    · split at h
      · cases h
      · exact .inr ⟨_, ⟨le_newtonStep _ _ _, not_lt.1 ‹_›⟩, h⟩

theorem positionsSteps_some {tol answer : F} (n : ℕ) {sigma : F} (hsigma : InRange sigma)
    (h : positionsSteps m market S K T r right tol n sigma = .ok (some answer)) :
    InRange answer ∧ (Prices m market S K T r right false (· < 1 / 20) answer ∨
      Prices m market S K T r right false (· < tol) answer) := by
  induction n generalizing sigma with
  | zero =>
    obtain ⟨last, hlast, h⟩ := bind_ok_iff.1 h
    obtain ⟨rfl, hclose⟩ := accept_eq_some (Except.ok.inj h)
    exact ⟨hsigma, .inl ⟨last, hlast, hclose⟩⟩
  | succ n ih =>
    rcases positionsSteps_succ h with ⟨rfl, hprices⟩ | ⟨next, hnext, hrest⟩
    · exact ⟨hsigma, hprices⟩
    · exact ih hnext hrest

/-- What the research solver answers is checked once more at its end. -/
theorem ivResearch_some {answer : F} {maxIter : ℕ}
    (h : ivResearch m market S K T r right maxIter = some answer) :
    unpriced market S K T = false ∧
      discountedIntrinsic m S K T r right - 1 / 10 ^ 6 ≤ market ∧ InRange answer ∧
      Prices m market S K T r right true (· ≤ max (1 / 20 * market) (1 / 20)) answer := by
  rw [ivResearch] at h
  split at h
  · cases h
  · split at h
    · cases h
    · dsimp only at h
      split at h
      · rename_i hpriced hfloor _ check hcheck
        split at h
        · cases h
        · split at h
          · rename_i hclose hrange
            obtain rfl := Option.some.inj h
            exact ⟨Bool.not_eq_true _ ▸ hpriced, not_lt.1 hfloor, hrange, check, hcheck,
              not_lt.1 hclose⟩
          · cases h
      · cases h

/-- What an answer of a solver says. -/
structure Solves (m : MathFunctions F) (market S K T r : F) (right convention : String)
    (tol sigma : F) : Prop where
  positive : 0 < T ∧ 0 < market ∧ 0 < S ∧ 0 < K
  range : InRange sigma
  /-- The market is not below the floor of the convention. -/
  floor : if convention = "positions_model" then intrinsic S K right - tol ≤ market
    else discountedIntrinsic m S K T r right - 1 / 10 ^ 6 ≤ market
  /-- The guarded formula has the Positions model's answer at the market, the raw formula the
  research solver's. -/
  prices : if convention = "positions_model" then
      Prices m market S K T r right false (· < max tol (1 / 20)) sigma
    else Prices m market S K T r right true (· ≤ max (1 / 20 * market) (1 / 20)) sigma

theorem positive_of_not_unpriced (h : unpriced market S K T = false) :
    0 < T ∧ 0 < market ∧ 0 < S ∧ 0 < K := by
  simpa [unpriced, and_assoc] using h

theorem impliedVol_positionsModel (maxIter : Option ℤ) (tol : F) :
    impliedVol m market S K T r right "positions_model" maxIter tol =
      ivPositionsModel m market S K T r right tol (maxIter.getD 100).toNat := if_pos rfl

variable [IsStrictOrderedRing F]

theorem inRange_start : InRange (3 / 10 : F) := by
  constructor <;> norm_num

theorem ivPositionsModel_some {tol answer : F} {maxIter : ℕ}
    (h : ivPositionsModel m market S K T r right tol maxIter = .ok (some answer)) :
    unpriced market S K T = false ∧ intrinsic S K right - tol ≤ market ∧ InRange answer ∧
      Prices m market S K T r right false (· < max tol (1 / 20)) answer := by
  rw [ivPositionsModel] at h
  split at h
  · cases h
  · split at h
    · cases h
    · rename_i hpriced hfloor
      obtain ⟨hrange, ⟨p, hp, hclose⟩ | ⟨p, hp, hclose⟩⟩ := positionsSteps_some _ inRange_start h
      · exact ⟨Bool.not_eq_true _ ▸ hpriced, not_lt.1 hfloor, hrange, p, hp,
          lt_max_of_lt_right hclose⟩
      · exact ⟨Bool.not_eq_true _ ▸ hpriced, not_lt.1 hfloor, hrange, p, hp,
          lt_max_of_lt_left hclose⟩

theorem impliedVol_solves {convention : String} {maxIter : Option ℤ} {tol answer : F}
    (h : impliedVol m market S K T r right convention maxIter tol = .ok (some answer)) :
    Solves m market S K T r right convention tol answer := by
  rw [impliedVol] at h
  split at h
  · rename_i hconvention
    obtain ⟨hpriced, hfloor, hrange, hprices⟩ := ivPositionsModel_some h
    exact ⟨positive_of_not_unpriced hpriced, hrange, by rwa [if_pos hconvention],
      by rwa [if_pos hconvention]⟩
  · rename_i hconvention
    split at h
    · obtain ⟨hpriced, hfloor, hrange, hprices⟩ := ivResearch_some (Except.ok.inj h)
      exact ⟨positive_of_not_unpriced hpriced, hrange, by rwa [if_neg hconvention],
        by rwa [if_neg hconvention]⟩
    · cases h

end Walks

noncomputable section

/-! ## Over the real numbers -/

section Guarded

variable (market S K T r tol : ℝ) (right : String)

/-- The guarded price never raises. -/
theorem price_guarded (sigma : ℝ) : ∃ p, price realMath S K T r sigma right false = .ok p := by
  by_cases hT : T ≤ 0
  · exact ⟨intrinsic S K right, by rw [price, decide_eq_true hT]; rfl⟩
  · obtain ⟨x, hx⟩ := d1_guarded S K T r sigma
    rw [price, hx, decide_eq_false hT, mathSqrt_of_nonneg (not_le.1 hT).le]
    by_cases hcall : isCall (some right) = true
    · exact ⟨_, if_pos hcall⟩
    · exact ⟨_, if_neg hcall⟩

/-- No turn of the walk raises. -/
theorem positionsSteps_ok (hT : 0 < T) (n : ℕ) (sigma : ℝ) :
    ∃ answer, positionsSteps realMath market S K T r right tol n sigma = .ok answer := by
  induction n generalizing sigma with
  | zero =>
    obtain ⟨last, hlast⟩ := price_guarded S K T r right sigma
    exact ⟨_, bind_ok_iff.2 ⟨last, hlast, rfl⟩⟩
  | succ n ih =>
    obtain ⟨p, hp⟩ := price_guarded S K T r right sigma
    obtain ⟨first, hfirst⟩ := d1_guarded S K T r sigma
    rw [positionsSteps, hp, hfirst, mathSqrt_of_nonneg hT.le]
    dsimp only [bind, Except.bind]
    split
    · exact ⟨_, rfl⟩
    · split
      · exact ⟨_, rfl⟩
      · split
        · exact ⟨_, rfl⟩
        · exact ih _

theorem ivPositionsModel_ok (maxIter : ℕ) :
    ∃ answer, ivPositionsModel realMath market S K T r right tol maxIter = .ok answer := by
  rw [ivPositionsModel]
  split
  · exact ⟨_, rfl⟩
  · split
    · exact ⟨_, rfl⟩
    · rename_i hpriced _
      have hT : 0 < T := (positive_of_not_unpriced (Bool.not_eq_true _ ▸ hpriced)).1
      exact positionsSteps_ok market S K T r tol right hT _ _

/-- **A solver raises for an unknown convention alone, and what it answers prices the market**, in
exact arithmetic: a volatility in the range whose price is within the tolerance of the convention,
for a market that is positive and not below the floor. -/
theorem impliedVol_law (convention : String) (maxIter : Option ℤ) :
    ((∃ answer, impliedVol realMath market S K T r right convention maxIter tol = .ok answer) ↔
      convention = "positions_model" ∨ convention = "research") ∧
    ∀ sigma, impliedVol realMath market S K T r right convention maxIter tol = .ok (some sigma) →
      Solves realMath market S K T r right convention tol sigma := by
  refine ⟨⟨?_, ?_⟩, fun sigma h => impliedVol_solves h⟩
  · rintro ⟨answer, h⟩
    rw [impliedVol] at h
    split at h
    · exact .inl ‹_›
    · split at h
      · exact .inr ‹_›
      · cases h
  · rintro (rfl | rfl)
    · exact ivPositionsModel_ok market S K T r tol right _
    · exact ⟨_, rfl⟩

end Guarded

/-! ## A walk to the lower bound -/

section CheapCall

open Real

/-- A step that would leave the range on the left ends at its bound. -/
theorem clampedStep_eq_low {sigma diff v : ℝ} (hv : 0 < v) (h : (sigma - 1 / 1000) * v ≤ diff) :
    clampedStep sigma diff v = 1 / 1000 := by
  have hstep : sigma - diff / v ≤ 1 / 1000 := by
    have hle : sigma - 1 / 1000 ≤ diff / v := (le_div_iff₀ hv).2 h
    linarith
  rw [clampedStep, max_eq_left]
  exact (min_le_right _ _).trans hstep

variable {sigma : ℝ}

theorem d1_atTheMoney (hsigma : 0 < sigma) : LognormalOption.d1 100 100 1 0 sigma = sigma / 2 := by
  rw [LognormalOption.d1, div_self (by norm_num), log_one, sqrt_one]
  field_simp
  ring

/-- At the money, without a rate and a year ahead. -/
theorem closedPrice_atTheMoney (hsigma : 0 < sigma) :
    closedPrice 100 100 1 0 sigma "C" = 200 * (Normal.cdf (sigma / 2) - 1 / 2) := by
  have hd2 : LognormalOption.d2 100 100 1 0 sigma = -(sigma / 2) := by
    rw [LognormalOption.d2, d1_atTheMoney hsigma, sqrt_one]
    ring
  rw [closedPrice, if_pos (by decide), LognormalOption.call, hd2, d1_atTheMoney hsigma,
    LognormalOption.forwardStrike, Normal.cdf_neg, neg_zero, zero_mul, exp_zero]
  ring

theorem closedVega_atTheMoney (hsigma : 0 < sigma) :
    closedVega 100 100 1 0 sigma = 100 * Normal.pdf (sigma / 2) := by
  rw [closedVega, d1_atTheMoney hsigma, sqrt_one, mul_one]

theorem le_pdf (hsigma : 0 < sigma) (hle : sigma ≤ 3 / 10) :
    3 / 10 ≤ Normal.pdf (sigma / 2) := by
  have hroot : 0 < √(2 * π) := sqrt_pos.2 (by positivity)
  have hup : √(2 * π) ≤ 3 := by
    rw [sqrt_le_iff]
    exact ⟨by norm_num, by linarith [pi_lt_four]⟩
  have hexp : 9 / 10 ≤ exp (-(1 / 2) * (sigma / 2) * (sigma / 2)) := by
    refine le_trans ?_ (add_one_le_exp _)
    nlinarith
  rw [Normal.pdf, le_div_iff₀ hroot]
  linarith

/-- From every volatility up to the start the walk steps to the bound. -/
theorem clampedStep_cheapCall (hsigma : 0 < sigma) (hle : sigma ≤ 3 / 10) :
    clampedStep sigma (closedPrice 100 100 1 0 sigma "C" - 3 / 100) (closedVega 100 100 1 0 sigma) =
      1 / 1000 := by
  have hpdf := le_pdf hsigma hle
  have hcdf := (Normal.mul_pdf_le_cdf (half_pos hsigma).le).1
  rw [closedPrice_atTheMoney hsigma, closedVega_atTheMoney hsigma]
  refine clampedStep_eq_low (by linarith) ?_
  linarith

theorem researchSteps_succ_cheapCall {n : ℕ} (hsigma : 0 < sigma) (hle : sigma ≤ 3 / 10) :
    researchSteps realMath (3 / 100) 100 100 1 0 "C" (n + 1) sigma =
      if |closedPrice 100 100 1 0 sigma "C" - 3 / 100| < 1 / 10 ^ 8 then 1 / 1000
      else researchSteps realMath (3 / 100) 100 100 1 0 "C" n (1 / 1000) := by
  have hvega : ¬ closedVega 100 100 1 0 sigma < 1 / 10 ^ 10 := by
    rw [closedVega_atTheMoney hsigma, not_lt]
    linarith [le_pdf hsigma hle, show (1 : ℝ) / 10 ^ 10 ≤ 1 by norm_num]
  rw [researchSteps, price_of_pos (by norm_num) (by norm_num) (by norm_num) hsigma,
    vega_of_pos (by norm_num) (by norm_num) (by norm_num) hsigma]
  dsimp only
  rw [if_neg hvega, clampedStep_cheapCall hsigma hle]

theorem researchSteps_cheapCall (n : ℕ) (hsigma : 0 < sigma) (hle : sigma ≤ 3 / 10) :
    researchSteps realMath (3 / 100) 100 100 1 0 "C" (n + 1) sigma = 1 / 1000 := by
  induction n generalizing sigma with
  | zero =>
    rw [researchSteps_succ_cheapCall hsigma hle, researchSteps, ite_self]
  | succ n ih =>
    rw [researchSteps_succ_cheapCall hsigma hle, ih (by norm_num) (by norm_num), ite_self]

/-- A call at three cents, at the money and a year ahead: the walk goes from 0.3 to the lower bound
and stays there for the 49 turns that are left. -/
theorem impliedVol_cheapCall :
    impliedVol realMath (3 / 100) 100 100 1 0 "C" "research" none (1 / 10 ^ 6) =
      .ok (some (1 / 1000)) := by
  have hopen : unpriced (3 / 100) (100 : ℝ) 100 1 = false := by
    simp [unpriced]
  have habove : ¬ 3 / 100 < discountedIntrinsic realMath 100 100 1 0 "C" - 1 / 10 ^ 6 := by
    rw [discountedIntrinsic_call (by decide), LognormalOption.forwardStrike, neg_zero, zero_mul,
      exp_zero]
    norm_num
  have hprice : price realMath 100 100 1 0 (1 / 1000) "C" true =
      .ok (closedPrice 100 100 1 0 (1 / 1000) "C") :=
    price_of_pos (by norm_num) (by norm_num) (by norm_num) (by norm_num) "C" true
  have hclose : ¬ max (1 / 20 * (3 / 100)) (1 / 20) <
      |closedPrice 100 100 1 0 (1 / 1000) "C" - 3 / 100| := by
    obtain ⟨hlow, hhigh⟩ := Normal.mul_pdf_le_cdf (show (0 : ℝ) ≤ 1 / 1000 / 2 by norm_num)
    have hpdf := le_pdf (show (0 : ℝ) < 1 / 1000 by norm_num) (by norm_num)
    have hpdfZero := Normal.pdf_zero_le
    rw [not_lt, closedPrice_atTheMoney (by norm_num)]
    refine le_max_of_le_right (abs_le.2 ⟨?_, ?_⟩)
    · linarith
    · linarith
  show Except.ok (ivResearch realMath (3 / 100) 100 100 1 0 "C" 50) = _
  rw [ivResearch, hopen, if_neg Bool.false_ne_true, if_neg habove]
  dsimp only
  rw [researchSteps_cheapCall 49 (by norm_num) (by norm_num), hprice]
  dsimp only
  rw [if_neg hclose, if_pos (by norm_num)]

end CheapCall

theorem impliedVol_law_cheapCall :
    Solves realMath (3 / 100) 100 100 1 0 "C" "research" (1 / 10 ^ 6) (1 / 1000) :=
  (impliedVol_law (3 / 100) 100 100 1 0 (1 / 10 ^ 6) "C" "research" none).2 _ impliedVol_cheapCall

end

end Pricing
