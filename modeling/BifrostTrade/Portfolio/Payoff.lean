import BifrostTrade.Lib.Calendar
import BifrostTrade.Lib.Python
import Mathlib.Data.List.MinMax

/-!
# Intrinsic payoff of an option structure

The payoff engine of `portfolio/model/payoff.py`: every leg is evaluated at expiration, on a grid
of underlying prices made of zero, the strikes and twice the largest strike, in exact arithmetic.
-/

namespace Portfolio

open Py

/-! ## Positions and results -/

/-- The option right of a leg. -/
inductive Right where
  | C
  | P
  deriving DecidableEq, Repr

/-- One option leg: contracts `qty` (long positive), premium per share `avgCost`. -/
structure RiskPosition where
  strike : ℚ
  right : Right
  qty : ℤ
  avgCost : ℚ
  expiry : Option Date := none
  deriving DecidableEq, Repr

/-- The shares a leg controls. -/
def RiskPosition.shares (p : RiskPosition) : ℤ := |p.qty| * 100

/-- A short call. -/
def RiskPosition.IsShortCall (p : RiskPosition) : Prop := p.right = .C ∧ p.qty < 0

instance (p : RiskPosition) : Decidable p.IsShortCall := inferInstanceAs (Decidable (_ ∧ _))

/-- The profit at one price, by its parts. -/
structure ScenarioBreakdown where
  underlyingPrice : ℚ
  optionsPnl : ℚ
  stockPnl : ℚ
  deriving DecidableEq, Repr

/-- A row of the grid. -/
structure GridRow where
  price : ℚ
  optionsPnl : ℚ
  stockPnl : ℚ
  total : ℚ
  deriving DecidableEq, Repr

/-- Whether the loss is bounded. -/
inductive RiskType where
  | defined
  | unlimited
  deriving DecidableEq, Repr

/-- What `_compute_envelope` returns. -/
structure Envelope where
  maxGain : Option ℚ
  maxLoss : Option ℚ
  riskType : RiskType
  breakevenPrices : List ℚ
  maxGainScenario : Option ScenarioBreakdown
  maxGainSampleScenario : Option ScenarioBreakdown
  maxLossScenario : Option ScenarioBreakdown
  deriving DecidableEq, Repr

/-- The envelope with what the profile adds to it. -/
structure EnvelopeResult extends Envelope where
  netPremium : ℚ
  nakedShortCallContracts : ℤ
  hedgedMaxLoss : Option ℚ
  hedgedMaxLossScenario : Option ScenarioBreakdown
  stockSharesModeled : ℤ
  stockAvgCostKnown : Bool
  deriving DecidableEq, Repr

/-! ## Payoff at one price -/

/-- Intrinsic value of a leg, per share. -/
def intrinsic (p : RiskPosition) (price : ℚ) : ℚ :=
  match p.right with
  | .C => max (price - p.strike) 0
  | .P => max (p.strike - price) 0

/-- The profit of one leg at a price. -/
def legPayoff (p : RiskPosition) (price : ℚ) : ℚ :=
  if 0 < p.qty then (intrinsic p price - p.avgCost) * p.shares
  else (p.avgCost - intrinsic p price) * p.shares

/-- The profit of the option legs. -/
def payoffOptionsAtPrice (positions : List RiskPosition) (price : ℚ) : ℚ :=
  (positions.map fun p => legPayoff p price).sum

/-- The profit of the covering shares. -/
def payoffStockAtPrice (coveredShares : ℤ) (avgCost : Option ℚ) (price : ℚ) : ℚ :=
  match avgCost with
  | none => 0
  | some cost => if coveredShares ≤ 0 then 0 else (price - cost) * coveredShares

/-- Options and stock together. -/
def payoffTotal (positions : List RiskPosition) (coveredShares : ℤ) (avgCost : Option ℚ)
    (price : ℚ) : ℚ :=
  payoffOptionsAtPrice positions price + payoffStockAtPrice coveredShares avgCost price

/-! ## The grid -/

/-- The distinct strikes in ascending order. -/
def sortedStrikes (positions : List RiskPosition) : List ℚ :=
  sortedBy id (positions.map RiskPosition.strike).dedup

/-- Zero, the strikes, and twice the largest. -/
def pricePoints (positions : List RiskPosition) : List ℚ :=
  let strikes := sortedStrikes positions
  0 :: strikes ++ (strikes.getLast?.map (· * 2)).toList

/-- The row of a price. -/
def gridRow (positions : List RiskPosition) (coveredShares : ℤ) (avgCost : Option ℚ)
    (price : ℚ) : GridRow where
  price := price
  optionsPnl := payoffOptionsAtPrice positions price
  stockPnl := payoffStockAtPrice coveredShares avgCost price
  total := payoffTotal positions coveredShares avgCost price

/-- The rows of the grid; none without a position. -/
def getRiskGridRows (positions : List RiskPosition) (coveredShares : ℤ)
    (underlyingAvgCost : Option ℚ) : List GridRow :=
  if positions = [] ∧ coveredShares ≤ 0 then []
  else (pricePoints positions).map (gridRow positions coveredShares underlyingAvgCost)

/-! ## Call cover -/

/-- Shares the short calls may have to deliver. -/
def netShortCall (positions : List RiskPosition) : ℤ :=
  ((positions.filter fun p => p.IsShortCall).map RiskPosition.shares).sum

/-- Shares the long calls may claim. -/
def netLongCall (positions : List RiskPosition) : ℤ :=
  ((positions.filter fun p => p.right = .C ∧ 0 < p.qty).map fun p => p.qty * 100).sum

/-- The source's test of an unbounded loss. -/
def hasUnlimitedDownside (positions : List RiskPosition) (coveredShares : ℤ) : Prop :=
  0 < netShortCall positions - netLongCall positions - coveredShares

/-- The source's test of an unbounded gain. -/
def hasUnlimitedUpside (positions : List RiskPosition) (coveredShares : ℤ) : Prop :=
  netShortCall positions + coveredShares < netLongCall positions ∨
    0 < coveredShares ∧ netShortCall positions = 0

instance (positions : List RiskPosition) (coveredShares : ℤ) :
    Decidable (hasUnlimitedDownside positions coveredShares) := Int.decLt ..

instance (positions : List RiskPosition) (coveredShares : ℤ) :
    Decidable (hasUnlimitedUpside positions coveredShares) :=
  inferInstanceAs (Decidable (_ ∨ _))

/-! ## Envelope -/

/-- `_round2`: two decimals. -/
def round2 (v : ℚ) : ℚ := Py.round (v * 100) / 100

/-- A breakdown in cents. -/
def roundScenario (s : ScenarioBreakdown) : ScenarioBreakdown where
  underlyingPrice := round2 s.underlyingPrice
  optionsPnl := round2 s.optionsPnl
  stockPnl := round2 s.stockPnl

/-- The sign changes and zeros between neighbouring rows. -/
def breakevensBetween : List GridRow → List ℚ
  | a :: b :: rows =>
      (if 0 ≤ a.total ∧ b.total < 0 ∨ a.total < 0 ∧ 0 ≤ b.total then
        if b.price ≠ a.price then
          [round2 (a.price + a.total / (a.total - b.total) * (b.price - a.price))]
        else []
      else if a.total = 0 ∧ 0 < a.price then [a.price] else []) ++
        breakevensBetween (b :: rows)
  | _ => []

/-- All breakevens: a zero in the last row counts once. -/
def breakevens (rows : List GridRow) : List ℚ :=
  let found := breakevensBetween rows
  match rows.getLast? with
  | some r => if r.total = 0 ∧ 0 < r.price ∧ r.price ∉ found then found ++ [r.price] else found
  | none => found

/-- The breakdown of a row. -/
def rowScenario (row : GridRow) : ScenarioBreakdown :=
  roundScenario ⟨row.price, row.optionsPnl, row.stockPnl⟩

/-- Nothing held, nothing at risk. -/
def emptyEnvelope : Envelope where
  maxGain := some 0
  maxLoss := some 0
  riskType := .defined
  breakevenPrices := []
  maxGainScenario := none
  maxGainSampleScenario := none
  maxLossScenario := none

/-- The extremes of the grid, cut off by the two tests. -/
def computeEnvelope (positions : List RiskPosition) (coveredShares : ℤ)
    (underlyingAvgCost : Option ℚ) : Envelope :=
  let rows := getRiskGridRows positions coveredShares underlyingAvgCost
  -- the first row with the smallest total and the first with the largest
  match rows.argmin GridRow.total, rows.argmax GridRow.total with
  | some low, some high =>
      { maxGain := if hasUnlimitedUpside positions coveredShares then none else some high.total
        maxLoss := if hasUnlimitedDownside positions coveredShares then none else some low.total
        riskType :=
          if hasUnlimitedDownside positions coveredShares then .unlimited else .defined
        breakevenPrices := breakevens rows
        maxGainScenario :=
          if hasUnlimitedUpside positions coveredShares then none else some (rowScenario high)
        maxGainSampleScenario := some (rowScenario high)
        maxLossScenario :=
          if hasUnlimitedDownside positions coveredShares then none else some (rowScenario low) }
  | _, _ => emptyEnvelope

/-! ## Stripping the naked short calls -/

/-- New quantities by position index, the highest strikes first, until `rem` contracts are gone. -/
def strippedQuantities : ℤ → List (ℕ × RiskPosition) → List (ℕ × ℤ)
  | _, [] => []
  | rem, (i, p) :: shorts =>
      if rem ≤ 0 then []
      else
        let dec := min rem |p.qty|
        (i, p.qty + dec) :: strippedQuantities (rem - dec) shorts

/-- The positions without the uncovered short calls, the highest strikes first. -/
def stripNakedShortCalls (positions : List RiskPosition) (contracts : ℤ) : List RiskPosition :=
  if contracts ≤ 0 then positions
  else
    let indexed := positions.zipIdx.map fun x => (x.2, x.1)
    let shorts := sortedBy (fun x : ℕ × RiskPosition => -x.2.strike)
      (indexed.filter fun x => x.2.IsShortCall)
    let newQty := strippedQuantities contracts shorts
    indexed.filterMap fun x =>
      match newQty.lookup x.1 with
      | some q => if q = 0 then none else some { x.2 with qty := q }
      | none => some x.2

/-! ## Risk profile -/

/-- What the options brought in, less what they cost. -/
def netPremium (positions : List RiskPosition) : ℚ :=
  (positions.map fun p =>
    if p.qty < 0 then p.avgCost * (p.shares : ℚ) else -(p.avgCost * p.shares)).sum

/-- The contracts of short calls that nothing covers. -/
def nakedShortCallContracts (positions : List RiskPosition) (coveredShares : ℤ) : ℤ :=
  let residual := max 0 (netShortCall positions - netLongCall positions - coveredShares)
  if 0 < residual then ⌈(residual / 100 : ℚ)⌉ else 0

/-- The full risk profile of one underlying group. -/
def computeRiskProfile (positions : List RiskPosition) (coveredShares : ℤ)
    (underlyingAvgCost : Option ℚ) : EnvelopeResult :=
  if positions = [] then
    { emptyEnvelope with
      netPremium := 0
      nakedShortCallContracts := 0
      hedgedMaxLoss := none
      hedgedMaxLossScenario := none
      stockSharesModeled := coveredShares
      stockAvgCostKnown := coveredShares ≤ 0 ∨ underlyingAvgCost.isSome }
  else
    let naked := nakedShortCallContracts positions coveredShares
    let env := computeEnvelope positions coveredShares underlyingAvgCost
    let hedged := computeEnvelope (stripNakedShortCalls positions naked) coveredShares
      underlyingAvgCost
    { env with
      maxGain := env.maxGain.map round2
      maxLoss := env.maxLoss.map round2
      netPremium := round2 (netPremium positions)
      nakedShortCallContracts := naked
      hedgedMaxLoss := if 0 < naked then hedged.maxLoss.map round2 else none
      hedgedMaxLossScenario := if 0 < naked then hedged.maxLossScenario else none
      stockSharesModeled := coveredShares
      stockAvgCostKnown := coveredShares ≤ 0 ∨ underlyingAvgCost.isSome }

end Portfolio
