import BifrostTrade.Lib.Rounding
import BifrostTrade.Portfolio.Payoff
import BifrostTrade.Pricing.BlackScholes

/-!
# The stress table of the positions model

Delta and the spot and volatility shocks of one underlying, from `portfolio/model/core.py`, and the
table of the account.  Each leg is priced to its own expiry at the volatility its mid implies; a leg
without one is worth its intrinsic value, and its row says so.
-/

namespace Pricing

open Py Rounding
open Portfolio (RiskPosition Right)
open scoped Numerals

/-- The side, as the wrappers of `portfolio/model/black_scholes.py` hand it on. -/
def rightText : Right → String
  | .C => "C"
  | .P => "P"

section Code

variable {F : Type} [Field F] [LinearOrder F] [FloorRing F] (m : MathFunctions F)

/-! ## Pricing the legs -/

/-- `_years_to`. -/
def yearsTo (today : Date) : Option Date → F
  | none => 0
  | some expiry => ((max ((expiry.toOrdinal : ℤ) - today.toOrdinal) 0 : ℤ) : F) / 365

/-- The mids of the options, by strike, right and expiry. -/
abbrev MidPrices (F : Type) := List ((ℚ × Right × Option Date) × F)

/-- The positions on one underlying, with what they are priced with. -/
structure Book (F : Type) where
  optPositions : List RiskPosition
  stockQty : ℤ
  stockAvgCost : Option ℚ
  spot : Option F
  farthestExpiry : Option Date
  optMidPrices : MidPrices F

/-- A leg, the years to its expiry, and the volatility its mid implies. -/
structure PricedLeg (F : Type) where
  leg : RiskPosition
  years : F
  iv : Option F

variable (today : Date) (r : F)

/-- No volatility is looked for without a mid or without time left. -/
def priceLeg (b : Book F) (spot : F) (p : RiskPosition) : Except MathError (PricedLeg F) := do
  let years := yearsTo today (p.expiry.or b.farthestExpiry)
  let iv ← match b.optMidPrices.lookup (p.strike, p.right, p.expiry) with
    | some mid =>
        if 0 < mid ∧ 0 < years then
          impliedVol m mid spot p.strike years r (rightText p.right) "positions_model" (some 100)
            (1 / 10 ^ 6)
        else .ok none
    | none => .ok none
  return ⟨p, years, iv⟩

/-- A volatility to price the leg with. -/
def PricedLeg.usableIv (l : PricedLeg F) : Option F := l.iv.filter fun v => 0 < v ∧ 0 < l.years

/-! ## Delta -/

/-- What the group says of a leg. -/
structure LegGreeks (F : Type) where
  leg : RiskPosition
  iv : Option F
  delta : Option F

/-- What `_compute_greeks_for_group` answers. -/
inductive GroupGreeks (F : Type) where
  | noSpot
  | priced (delta deltaDollars : F) (degradedLegCount : ℕ) (perLeg : List (LegGreeks F))

/-- The delta of a leg, unrounded; none for a degraded one. -/
def legDelta (spot : F) (l : PricedLeg F) : Except MathError (Option F) :=
  match l.usableIv with
  | some iv => do
      let raw ← erfDelta m spot l.leg.strike l.years r iv (rightText l.leg.right) false
      return some (raw * l.leg.qty * 100)
  | none => .ok none

/-- `_compute_greeks_for_group`. -/
def computeGreeksForGroup (b : Book F) : Except MathError (GroupGreeks F) :=
  match b.spot with
  | none => .ok .noSpot
  | some spot =>
      if spot ≤ 0 then .ok .noSpot
      else do
        let legs ← b.optPositions.mapM (priceLeg m today r b spot)
        let deltas ← legs.mapM (legDelta m r spot)
        let totalDelta := b.stockQty + deltas.reduceOption.sum
        return .priced (places 4 totalDelta) (places 2 (totalDelta * spot))
          (deltas.countP Option.isNone)
          (legs.zipWith (fun l d => ⟨l.leg, l.iv.map (places 4), d.map (places 4)⟩) deltas)

/-! ## The shocks -/

/-- `SPOT_SHOCKS`. -/
def spotShocks : List F := [-15 / 100, -10 / 100, -5 / 100, 0, 5 / 100, 10 / 100, 15 / 100]

/-- `IV_SHOCKS`, in points of volatility. -/
def ivShocks : List F := [-5 / 100, 5 / 100]

/-- How a row was priced. -/
inductive StressMethod where
  | intrinsic
  | bsReprice
  | mixedIntrinsic
  deriving DecidableEq

/-- A row of the stress table. -/
structure StressRow (F : Type) where
  spotShock : F
  ivShock : F
  newSpot : F
  optionsPnl : F
  stockPnl : F
  totalPnl : F
  method : StressMethod
  /-- Against the row without shocks; absent where there is none. -/
  pnlChange : Option F

/-- What a leg has made, worth that much a share. -/
def legPnl (p : RiskPosition) (value : F) : F :=
  if 0 < p.qty then (value - p.avgCost) * |(p.qty : F)| * 100
  else (p.avgCost - value) * |(p.qty : F)| * 100

/-- A position without a known cost makes nothing. -/
def stockPnl (b : Book F) (newSpot : F) : F :=
  if b.stockQty = 0 then 0
  else match b.stockAvgCost with
    | some cost => (newSpot - cost) * b.stockQty
    | none => 0

/-- The volatility a shocked leg is priced at. -/
def shockedVol (iv ivShock : F) : F := max (iv + ivShock) (1 / 100)

/-- What a leg pays at a spot. -/
def intrinsicValue (newSpot : F) (p : RiskPosition) : F :=
  intrinsic newSpot p.strike (rightText p.right)

/-- The value of a leg under the shocks. -/
def legValue (newSpot ivShock : F) (l : PricedLeg F) : Except MathError F :=
  match l.usableIv with
  | some iv =>
      price m newSpot l.leg.strike l.years r (shockedVol iv ivShock) (rightText l.leg.right) false
  | none => .ok (intrinsicValue newSpot l.leg)

/-- The options' P&L under the shocks, each leg repriced where it can be.  The sum is exact: the
rounding of floats, which may move a row by a cent, is left out. -/
def repricedPnl (legs : List (PricedLeg F)) (newSpot ivShock : F) : Except MathError F := do
  let values ← legs.mapM (legValue m r newSpot ivShock)
  return (legs.zipWith (fun l value => legPnl l.leg value) values).sum

/-- The options' P&L where none is repriced. -/
def intrinsicPnl (legs : List (PricedLeg F)) (newSpot : F) : F :=
  (legs.map fun l => legPnl l.leg (intrinsicValue newSpot l.leg)).sum

/-- A row of two shocks: the exact sums, rounded to cents. -/
def stressRow (spot stock spotShock ivShock pnl : F) (method : StressMethod) : StressRow F where
  spotShock := spotShock
  ivShock := ivShock
  newSpot := places 2 (spot * (1 + spotShock))
  optionsPnl := places 2 pnl
  stockPnl := places 2 stock
  totalPnl := places 2 (pnl + stock)
  method := method
  pnlChange := none

/-- The rows of one spot shock. -/
def shockRows (b : Book F) (spot : F) (legs : List (PricedLeg F)) (spotShock : F) :
    Except MathError (List (StressRow F)) :=
  let newSpot := spot * (1 + spotShock)
  let stock := stockPnl b newSpot
  if (legs.any fun l => l.iv.isSome) ∧ (legs.any fun l => 0 < l.years) then
    (0 :: ivShocks).mapM fun ivShock => do
      let pnl ← repricedPnl m r legs newSpot ivShock
      let method := if legs.all fun l => l.usableIv.isSome then .bsReprice else .mixedIntrinsic
      return stressRow spot stock spotShock ivShock pnl method
  else .ok [stressRow spot stock spotShock 0 (intrinsicPnl legs newSpot) .intrinsic]

/-- `_stamp_pnl_change`. -/
def stampPnlChange (scenarios : List (StressRow F)) : List (StressRow F) :=
  match scenarios.find? fun s => s.spotShock = 0 ∧ s.ivShock = 0 with
  | none => scenarios
  | some baseline =>
      scenarios.map fun s =>
        { s with pnlChange := some (places 2 (s.totalPnl - baseline.totalPnl)) }

/-- What `_stress_matrix` answers where there is a spot. -/
structure StressTable (F : Type) where
  ivStressAvailable : Bool
  scenarios : List (StressRow F)

/-- `_stress_matrix`; `none` without a spot. -/
def stressMatrix (b : Book F) : Except MathError (Option (StressTable F)) :=
  match b.spot with
  | none => .ok none
  | some spot =>
      if spot ≤ 0 then .ok none
      else do
        let legs ← b.optPositions.mapM (priceLeg m today r b spot)
        let rows ← spotShocks.mapM (shockRows m r b spot legs)
        return some ⟨legs.any fun l => l.iv.isSome, stampPnlChange rows.flatten⟩

/-! ## The account -/

/-- A row of the account's table. -/
structure AccountStressRow (F : Type) where
  spotShock : F
  ivShock : F
  totalPnl : F
  pnlChange : F
  contributors : ℕ
  isPartial : Bool

/-- The account's table. -/
structure AccountStress (F : Type) where
  ivStressAvailable : Bool
  underlyings : ℕ
  scenarios : List (AccountStressRow F)

/-- The rows of one pair of shocks. -/
def accountRow (contributing : ℕ) (rows : (F × F) × List (StressRow F)) : AccountStressRow F where
  spotShock := rows.1.1
  ivShock := rows.1.2
  totalPnl := places 2 (rows.2.map StressRow.totalPnl).sum
  pnlChange := places 2 (rows.2.map fun s => s.pnlChange.getD 0).sum
  contributors := rows.2.length
  isPartial := rows.2.length < contributing

/-- `_aggregate_stress` of the tables of the underlyings; `none` where none has one. -/
def aggregateStress (perUnderlying : List (Option (StressTable F))) : Option (AccountStress F) :=
  let tables := perUnderlying.reduceOption
  if tables = [] then none
  else
    let combined :=
      groupBy (fun s => (s.spotShock, s.ivShock)) (tables.flatMap StressTable.scenarios)
    some {
      ivStressAvailable := tables.any StressTable.ivStressAvailable
      underlyings := tables.length
      scenarios := (sortedBy (fun g => toLex g.1) combined).map (accountRow tables.length) }

end Code

/-- `RATE_POSITIONS_MODEL`. -/
def ratePositionsModel {F : Type} [Field F] : F := 4 / 100

end Pricing
