import BifrostTrade.Lib.LognormalOption
import BifrostTrade.Lib.Text

/-!
# Black–Scholes

The closed forms on `math.erf` that every caller prices with, the two conventions for degenerate
input, and the two solvers for the implied volatility.  The code is over any ordered field with the
functions of `math`; the results are about the real numbers, where a float's rounding, overflow and
underflow are left out.
-/

namespace Pricing

open Py
open scoped Numerals

/-! ## The functions of `math` -/

/-- What the formulas use of `math`.  That `math.exp` overflows and that floats underflow is left
out: each is a function on the whole field. -/
structure MathFunctions (F : Type*) where
  pi : F
  exp : F → F
  log : F → F
  sqrt : F → F
  erf : F → F

/-- What the formulas can raise. -/
inductive MathError where
  | zeroDivisionError
  | valueError
  deriving DecidableEq

section Code

variable {F : Type*} [Field F] [LinearOrder F] (m : MathFunctions F)

/-- `x / y`. -/
def divide (x y : F) : Except MathError F :=
  if y = 0 then .error .zeroDivisionError else .ok (x / y)

/-- `math.log`. -/
def mathLog (x : F) : Except MathError F :=
  if x ≤ 0 then .error .valueError else .ok (m.log x)

/-- `math.sqrt`. -/
def mathSqrt (x : F) : Except MathError F :=
  if x < 0 then .error .valueError else .ok (m.sqrt x)

/-! ## The closed forms -/

/-- A right that is not a call is a put. -/
def isCall (right : Option String) : Bool :=
  upper (right.getD "") ∈ ["C", "CALL"]

/-- `norm_cdf`. -/
def normCdf (x : F) : F := 1 / 2 * (1 + m.erf (x / m.sqrt 2))

/-- `norm_pdf`. -/
def normPdf (x : F) : F := m.exp (-(1 / 2) * x * x) / m.sqrt (2 * m.pi)

/-- `_degenerate`. -/
def degenerate (S K T sigma : F) : Bool := T ≤ 0 || sigma ≤ 0 || S ≤ 0 || K ≤ 0

/-- `d1`; the guarded convention makes it zero on degenerate input. -/
def d1 (S K T r sigma : F) (strict : Bool) : Except MathError F :=
  if !strict && degenerate S K T sigma then .ok 0
  else do
    let ratio ← divide S K
    let logRatio ← mathLog m ratio
    let root ← mathSqrt m T
    divide (logRatio + (r + 1 / 2 * sigma * sigma) * T) (sigma * root)

/-- `d2`. -/
def d2 (S K T r sigma : F) (strict : Bool) : Except MathError F := do
  let first ← d1 m S K T r sigma strict
  let root ← mathSqrt m T
  return first - sigma * root

/-- What an option pays where it ends now. -/
def intrinsic (S K : F) (right : String) : F :=
  if isCall (some right) then max (S - K) 0 else max (K - S) 0

/-- `price`; the guarded convention pays out at the expiry. -/
def price (S K T r sigma : F) (right : String) (strict : Bool) : Except MathError F :=
  if !strict && decide (T ≤ 0) then .ok (intrinsic S K right)
  else do
    let first ← d1 m S K T r sigma strict
    let root ← mathSqrt m T
    let second := first - sigma * root
    if isCall (some right) then
      return S * normCdf m first - K * m.exp (-r * T) * normCdf m second
    else
      return K * m.exp (-r * T) * normCdf m (-second) - S * normCdf m (-first)

/-- `erf_delta`; the guarded convention makes it a step at the expiry. -/
def erfDelta (S K T r sigma : F) (right : String) (strict : Bool) : Except MathError F :=
  if !strict && (decide (T ≤ 0) || decide (sigma ≤ 0)) then
    if isCall (some right) then .ok (if K < S then 1 else if S = K then 1 / 2 else 0)
    else .ok (if S < K then -1 else if S = K then -(1 / 2) else 0)
  else do
    let first ← d1 m S K T r sigma strict
    return if isCall (some right) then normCdf m first else normCdf m first - 1

/-- `erf_gamma`. -/
def erfGamma (S K T r sigma : F) (strict : Bool) : Except MathError F :=
  if !strict && degenerate S K T sigma then .ok 0
  else do
    let first ← d1 m S K T r sigma strict
    let root ← mathSqrt m T
    divide (normPdf m first) (S * sigma * root)

/-- `vega`, for a volatility of one. -/
def vega (S K T r sigma : F) (strict : Bool) : Except MathError F :=
  if !strict && degenerate S K T sigma then .ok 0
  else do
    let first ← d1 m S K T r sigma strict
    let root ← mathSqrt m T
    return S * normPdf m first * root

/-- `theta`, a calendar day. -/
def theta (S K T r sigma : F) (right : String) (strict : Bool) : Except MathError F :=
  if !strict && degenerate S K T sigma then .ok 0
  else do
    let first ← d1 m S K T r sigma strict
    let root ← mathSqrt m T
    let second := first - sigma * root
    let decay ← divide (-(S * normPdf m first * sigma)) (2 * root)
    let carry := r * K * m.exp (-r * T)
    let annual :=
      if isCall (some right) then decay - carry * normCdf m second
      else decay + carry * normCdf m (-second)
    return annual / 365

/-- What `greeks` returns: theta a calendar day, vega a point of volatility. -/
structure Greeks (F : Type*) where
  delta : F
  gamma : F
  theta : F
  vega : F

/-- `greeks`. -/
def greeks (S K T r sigma : F) (right : String) (strict : Bool) : Except MathError (Greeks F) := do
  let delta ← erfDelta m S K T r sigma right strict
  let gamma ← erfGamma m S K T r sigma strict
  let theta ← theta m S K T r sigma right strict
  let vega ← vega m S K T r sigma strict
  return ⟨delta, gamma, theta, vega * (1 / 100)⟩

/-- `prob_itm`. -/
def probItm (S K T r sigma : F) (right : String) (strict : Bool) : Except MathError F :=
  if !strict && (decide (T ≤ 0) || decide (sigma ≤ 0)) then
    if isCall (some right) then .ok (if K < S then 1 else 0)
    else .ok (if S < K then 1 else 0)
  else do
    let first ← d1 m S K T r sigma strict
    let root ← mathSqrt m T
    let second := first - sigma * root
    return if isCall (some right) then normCdf m second else normCdf m (-second)

/-! ## The implied volatility -/

/-- No volatility is looked for where one of these is not positive. -/
def unpriced (market S K T : F) : Bool := T ≤ 0 || market ≤ 0 || S ≤ 0 || K ≤ 0

/-- A Newton step, kept from zero. -/
def newtonStep (sigma diff v : F) : F :=
  let stepped := sigma - diff / v
  if stepped ≤ 1 / 1000 then 1 / 1000 else stepped

/-- The steps of the solver of the Positions model, and what it answers after them. -/
def positionsSteps (market S K T r : F) (right : String) (tol : F) :
    ℕ → F → Except MathError (Option F)
  | 0, sigma => do
    let last ← price m S K T r sigma right false
    return if |last - market| < 1 / 20 then some sigma else none
  | n + 1, sigma => do
    let p ← price m S K T r sigma right false
    let first ← d1 m S K T r sigma false
    let root ← mathSqrt m T
    let v := S * root * m.exp (-(1 / 2) * first * first) / m.sqrt (2 * m.pi)
    if v < 1 / 10 ^ 12 then
      -- the loop breaks: the last volatility is answered where its price is close
      let last ← price m S K T r sigma right false
      return if |last - market| < 1 / 20 then some sigma else none
    else
      let diff := p - market
      if |diff| < tol then return some sigma
      else
        let next := newtonStep sigma diff v
        if 5 < next then return none
        else positionsSteps market S K T r right tol n next

/-- `_iv_positions_model`. -/
def ivPositionsModel (market S K T r : F) (right : String) (tol : F) (maxIter : ℕ) :
    Except MathError (Option F) :=
  if unpriced market S K T then .ok none
  else if market < intrinsic S K right - tol then .ok none
  else positionsSteps m market S K T r right tol maxIter (3 / 10)

/-- A Newton step, clamped. -/
def clampedStep (sigma diff v : F) : F := max (1 / 1000) (min 5 (sigma - diff / v))

/-- The steps of the research solver; an exception leaves the volatility where it is. -/
def researchSteps (market S K T r : F) (right : String) : ℕ → F → F
  | 0, sigma => sigma
  | n + 1, sigma =>
    match price m S K T r sigma right true, vega m S K T r sigma true with
    | .ok p, .ok v =>
      if v < 1 / 10 ^ 10 then sigma
      else
        let diff := p - market
        let next := clampedStep sigma diff v
        if |diff| < 1 / 10 ^ 8 then next else researchSteps market S K T r right n next
    | _, _ => sigma

/-- What an option pays at least, discounted. -/
def discountedIntrinsic (S K T r : F) (right : String) : F :=
  if isCall (some right) then max 0 (S - K * m.exp (-r * T)) else max 0 (K * m.exp (-r * T) - S)

/-- `_iv_research`. -/
def ivResearch (market S K T r : F) (right : String) (maxIter : ℕ) : Option F :=
  if unpriced market S K T then none
  else if market < discountedIntrinsic m S K T r right - 1 / 10 ^ 6 then none
  else
    let sigma := researchSteps m market S K T r right maxIter (3 / 10)
    match price m S K T r sigma right true with
    | .ok check =>
      if max (1 / 20 * market) (1 / 20) < |check - market| then none
      else if 1 / 1000 ≤ sigma ∧ sigma ≤ 5 then some sigma else none
    | .error _ => none

/-- A convention that is neither is refused. -/
def impliedVol (market S K T r : F) (right convention : String) (maxIter : Option ℤ) (tol : F) :
    Except MathError (Option F) :=
  if convention = "positions_model" then
    ivPositionsModel m market S K T r right tol (maxIter.getD 100).toNat
  else if convention = "research" then
    .ok (ivResearch m market S K T r right (maxIter.getD 50).toNat)
  else .error .valueError

end Code

end Pricing
