import BifrostTrade.Portfolio.PayoffProof
import Mathlib.Data.Prod.Lex

/-!
# Capital at risk

The committed capital of an option structure, from `portfolio/model/core.py`.  Shares are handed
to the short calls one leg after the other, lowest strike first, and a short call that finds none
left is unbounded.  The payoff engine decides nakedness from the net short calls instead; the two
agree except in two bands of the shares held (`carAgreesWithPayoff_iff`).
-/

namespace Portfolio

open Py

/-! ## Definitions -/

/-- Shares the option structure actually uses as cover. -/
def sharesBackingShortCalls (optPositions : List RiskPosition) (stockQty : ℤ) : ℤ :=
  let required := max 0 (netShortCall optPositions - netLongCall optPositions)
  min (max stockQty 0) required

/-- Why a leg commits what it does. -/
inductive CarType where
  | premiumPaid
  | cashSecured
  | nakedUnbounded
  | coveredNoMark
  | coveredStockValue
  | unknown
  deriving DecidableEq, Repr

/-- Capital this leg commits now, with the reason. -/
def computeCarPerLeg (p : RiskPosition) (sharesAvailable : ℤ) (spot : Option ℚ) :
    Double × CarType :=
  if 0 < p.qty then (.fin (|p.avgCost| * p.shares), .premiumPaid)
  else if p.right = .P ∧ p.qty < 0 then (.fin (p.strike * p.shares), .cashSecured)
  else if p.IsShortCall then
    let covered := min p.shares (max sharesAvailable 0)
    if covered ≤ 0 then (.posInf, .nakedUnbounded)
    else match spot with
      | none => (.nan, .coveredNoMark)
      | some spot =>
          if spot ≤ 0 then (.nan, .coveredNoMark) else (.fin (spot * covered), .coveredStockValue)
  else (.fin 0, .unknown)

/-- The detail of one leg. -/
structure LegCar where
  strike : ℚ
  right : Right
  qty : ℤ
  car : Option ℚ
  type : CarType
  deriving DecidableEq, Repr

/-- The loop's variables. -/
structure CarState where
  legCars : List LegCar
  totalLeg : ℚ
  hasUnbounded : Bool
  remainingShares : ℤ
  deriving DecidableEq, Repr

/-- One pass of the loop over the legs. -/
def carStep (spot : Option ℚ) (st : CarState) (p : RiskPosition) : CarState :=
  let (val, label) := computeCarPerLeg p st.remainingShares spot
  let remaining :=
    if p.IsShortCall ∧ 0 < st.remainingShares then max 0 (st.remainingShares - p.shares)
    else st.remainingShares
  match val with
  | .nan => { st with
      legCars := st.legCars ++ [⟨p.strike, p.right, p.qty, none, label⟩]
      remainingShares := remaining }
  | .posInf | .negInf => { st with
      legCars := st.legCars ++ [⟨p.strike, p.right, p.qty, none, label⟩]
      hasUnbounded := true
      remainingShares := remaining }
  | .fin x => { st with
      legCars := st.legCars ++ [⟨p.strike, p.right, p.qty, some (roundTo 2 x), label⟩]
      totalLeg := st.totalLeg + x
      remainingShares := remaining }

/-- Assignment order: the short calls by strike, then the other legs by strike. -/
def carOrder (optPositions : List RiskPosition) : List RiskPosition :=
  sortedBy (fun p => toLex (if p.IsShortCall then 0 else 1, p.strike) : _ → ℕ ×ₗ ℚ) optPositions

theorem carOrder_perm (optPositions : List RiskPosition) :
    (carOrder optPositions).Perm optPositions :=
  sortedBy_perm _ _

/-- Which figure the effective capital is. -/
inductive CarExplain where
  | netPortfolioMaxLoss
  | sumOfLegs
  | unbounded
  deriving DecidableEq, Repr

/-- The capital at risk of one underlying group. -/
structure CarResult where
  effective : Option ℚ
  explain : CarExplain
  hasUnbounded : Bool
  legDetails : List LegCar
  committed : Option ℚ
  deriving DecidableEq, Repr

/-- The state after all legs. -/
def carWalk (optPositions : List RiskPosition) (stockQty : ℤ) (spot : Option ℚ) : CarState :=
  (carOrder optPositions).foldl (carStep spot) ⟨[], 0, false, max stockQty 0⟩

/-- The capital at risk of a group: the sum of its legs, or its largest loss where that is less. -/
def computeCar (optPositions : List RiskPosition) (stockQty : ℤ) (spot : Option ℚ)
    (envelopeMaxLoss : Option ℚ) : CarResult :=
  let st := carWalk optPositions stockQty spot
  let sumOfLegs := if st.hasUnbounded then none else some (roundTo 2 st.totalLeg)
  let uncapped : CarResult :=
    { effective := sumOfLegs
      explain := if st.hasUnbounded then .unbounded else .sumOfLegs
      hasUnbounded := st.hasUnbounded
      legDetails := st.legCars
      committed := sumOfLegs }
  match envelopeMaxLoss with
  | none => uncapped
  | some loss =>
      if st.hasUnbounded = false ∧ |loss| < st.totalLeg then
        { uncapped with effective := some (roundTo 2 |loss|), explain := .netPortfolioMaxLoss }
      else uncapped

/-! ## Shares handed out -/

@[simp] theorem computeCar_hasUnbounded (optPositions : List RiskPosition) (stockQty : ℤ)
    (spot envelopeMaxLoss : Option ℚ) :
    (computeCar optPositions stockQty spot envelopeMaxLoss).hasUnbounded =
      (carWalk optPositions stockQty spot).hasUnbounded := by
  unfold computeCar
  cases envelopeMaxLoss with
  | none => rfl
  | some loss =>
    dsimp only
    split_ifs <;> rfl

theorem RiskPosition.shares_nonneg (p : RiskPosition) : 0 ≤ p.shares :=
  mul_nonneg (abs_nonneg _) (by norm_num)

theorem RiskPosition.IsShortCall.shares_pos {p : RiskPosition} (h : p.IsShortCall) :
    0 < p.shares :=
  mul_pos (abs_pos.2 h.2.ne) (by norm_num)

theorem computeCarPerLeg_isInf (p : RiskPosition) (sharesAvailable : ℤ) (spot : Option ℚ) :
    (computeCarPerLeg p sharesAvailable spot).1.isInf = true ↔
      p.IsShortCall ∧ sharesAvailable ≤ 0 := by
  unfold computeCarPerLeg
  by_cases hlong : 0 < p.qty
  · have hns : ¬ p.IsShortCall := fun h => absurd h.2 (by omega)
    simp [hlong, hns, Double.isInf]
  by_cases hput : p.right = .P ∧ p.qty < 0
  · have hns : ¬ p.IsShortCall := fun h => by simp [h.1] at hput
    simp [hlong, hput, hns, Double.isInf]
  by_cases hsc : p.IsShortCall
  · have hpos := hsc.shares_pos
    rw [if_neg hlong, if_neg hput, if_pos hsc]
    by_cases hrem : sharesAvailable ≤ 0
    · simp [Double.isInf, hsc, hrem]
    · have hcov : ¬ min p.shares (max sharesAvailable 0) ≤ 0 := by omega
      simp only [hcov, hsc, hrem, if_false, true_and, iff_false]
      cases spot with
      | none => simp [Double.isInf]
      | some spot =>
        dsimp only
        split_ifs <;> simp [Double.isInf]
  · simp [hlong, hput, hsc, Double.isInf]

/-- One leg: it takes its shares if it is a short call, and is flagged when none are left. -/
theorem carStep_spec (spot : Option ℚ) (st : CarState) (p : RiskPosition)
    (hrem : 0 ≤ st.remainingShares) :
    ((carStep spot st p).hasUnbounded = true ↔
      st.hasUnbounded = true ∨ p.IsShortCall ∧ st.remainingShares ≤ 0) ∧
    (carStep spot st p).remainingShares =
      if p.IsShortCall then max 0 (st.remainingShares - p.shares) else st.remainingShares := by
  have hinf := computeCarPerLeg_isInf p st.remainingShares spot
  have hnn := p.shares_nonneg
  have hrest : (if p.IsShortCall ∧ 0 < st.remainingShares then
      max 0 (st.remainingShares - p.shares) else st.remainingShares) =
      if p.IsShortCall then max 0 (st.remainingShares - p.shares) else st.remainingShares := by
    by_cases hsc : p.IsShortCall
    · by_cases hpos : 0 < st.remainingShares
      · simp only [hsc, hpos, and_self, if_true]
      · simp only [hsc, hpos, and_false, if_false, if_true]
        omega
    · simp only [hsc, false_and, if_false]
  unfold carStep
  rcases hval : computeCarPerLeg p st.remainingShares spot with ⟨val, label⟩
  rw [hval] at hinf
  cases val with
  | fin x => exact ⟨(or_iff_left (hinf.not.1 (by simp [Double.isInf]))).symm, hrest⟩
  | nan => exact ⟨(or_iff_left (hinf.not.1 (by simp [Double.isInf]))).symm, hrest⟩
  | posInf => exact ⟨iff_of_true rfl (Or.inr (hinf.1 rfl)), hrest⟩
  | negInf => exact ⟨iff_of_true rfl (Or.inr (hinf.1 rfl)), hrest⟩

/-- The short call that is assigned last. -/
def lastShortCall (ps : List RiskPosition) : Option RiskPosition :=
  (ps.filter fun p => p.IsShortCall).getLast?

theorem lastShortCall_cons (p : RiskPosition) (ps : List RiskPosition) :
    lastShortCall (p :: ps) =
      if p.IsShortCall then some ((lastShortCall ps).getD p) else lastShortCall ps := by
  unfold lastShortCall
  by_cases h : p.IsShortCall
  · rw [List.filter_cons_of_pos (by simpa using h), List.getLast?_cons, if_pos h]
  · rw [List.filter_cons_of_neg (by simpa using h), if_neg h]

theorem netShortCall_of_lastShortCall_eq_none {ps : List RiskPosition}
    (h : lastShortCall ps = none) : netShortCall ps = 0 := by
  rw [netShortCall, List.getLast?_eq_none_iff.1 h]
  rfl

theorem shares_le_netShortCall {ps : List RiskPosition} {q : RiskPosition}
    (hq : q ∈ lastShortCall ps) : q.shares ≤ netShortCall ps := by
  refine List.single_le_sum (fun x hx => ?_) _ (List.mem_map_of_mem (List.mem_of_getLast? hq))
  obtain ⟨p, -, rfl⟩ := List.mem_map.1 hx
  exact p.shares_nonneg

/-- The walk flags exactly when the shares are used up before the last short call. -/
theorem foldl_carStep_hasUnbounded (spot : Option ℚ) (ps : List RiskPosition) (st : CarState)
    (hrem : 0 ≤ st.remainingShares) :
    (ps.foldl (carStep spot) st).hasUnbounded = true ↔ st.hasUnbounded = true ∨
      ∃ q ∈ lastShortCall ps, st.remainingShares ≤ netShortCall ps - q.shares := by
  induction ps generalizing st with
  | nil => simp [lastShortCall]
  | cons p ps ih =>
    obtain ⟨hflag, hrest⟩ := carStep_spec spot st p hrem
    rw [List.foldl_cons, ih _ (by rw [hrest]; split_ifs <;> omega), hflag, hrest,
      netShortCall_cons, lastShortCall_cons]
    by_cases hsc : p.IsShortCall
    · simp only [hsc, true_and, if_true, or_assoc]
      refine or_congr_right ?_
      cases hlast : lastShortCall ps with
      | none => simp [netShortCall_of_lastShortCall_eq_none hlast]
      | some q =>
        have hle := shares_le_netShortCall hlast
        have hnn := p.shares_nonneg
        simp only [Option.getD_some, Option.mem_some_iff, exists_eq_left']
        omega
    · simp [hsc]

theorem netShortCall_perm {ps qs : List RiskPosition} (h : ps.Perm qs) :
    netShortCall ps = netShortCall qs :=
  ((h.filter _).map _).sum_eq

theorem computeCar_hasUnbounded_iff (optPositions : List RiskPosition) (stockQty : ℤ)
    (spot envelopeMaxLoss : Option ℚ) :
    (computeCar optPositions stockQty spot envelopeMaxLoss).hasUnbounded = true ↔
      ∃ q ∈ lastShortCall (carOrder optPositions),
        max stockQty 0 ≤ netShortCall optPositions - q.shares := by
  rw [computeCar_hasUnbounded, carWalk, foldl_carStep_hasUnbounded _ _ _ (le_max_right _ _),
    netShortCall_perm (carOrder_perm optPositions)]
  simp

/-! ## Agreement with the payoff engine -/

theorem nakedShortCallContracts_pos_iff (positions : List RiskPosition) (coveredShares : ℤ) :
    0 < nakedShortCallContracts positions coveredShares ↔
      hasUnlimitedDownside positions coveredShares := by
  unfold nakedShortCallContracts hasUnlimitedDownside
  dsimp only
  split_ifs with h
  · refine iff_of_true (Int.ceil_pos.2 ?_) (by omega)
    have : (0 : ℚ) < (max 0 (netShortCall positions - netLongCall positions - coveredShares) : ℤ) :=
      by exact_mod_cast h
    positivity
  · exact iff_of_false (lt_irrefl 0) (by omega)

/-- Naked short calls are an unlimited loss. -/
theorem computeRiskProfile_naked_pos_iff (positions : List RiskPosition) (coveredShares : ℤ)
    (avgCost : Option ℚ) :
    0 < (computeRiskProfile positions coveredShares avgCost).nakedShortCallContracts ↔
      (computeRiskProfile positions coveredShares avgCost).maxLoss = none := by
  by_cases hne : positions = []
  · simp [computeRiskProfile, hne, emptyEnvelope]
  · have hnaked : (computeRiskProfile positions coveredShares avgCost).nakedShortCallContracts =
        nakedShortCallContracts positions coveredShares := by
      rw [computeRiskProfile, if_neg hne]
    obtain ⟨low, -, -, -, -, -, hloss, -⟩ := computeEnvelope_spec hne coveredShares avgCost
    rw [hnaked, nakedShortCallContracts_pos_iff, computeRiskProfile_maxLoss hne, hloss]
    split_ifs with h <;> simp [h]

theorem naked_pos_iff_stock_lt (positions : List RiskPosition) (stockQty : ℤ)
    (avgCost : Option ℚ) :
    0 < (computeRiskProfile positions (sharesBackingShortCalls positions stockQty)
        avgCost).nakedShortCallContracts ↔
      max stockQty 0 < netShortCall positions - netLongCall positions := by
  have hl := netLongCall_nonneg positions
  by_cases hne : positions = []
  · subst hne
    simp [computeRiskProfile, netShortCall, netLongCall]
  · have hnaked : (computeRiskProfile positions (sharesBackingShortCalls positions stockQty)
        avgCost).nakedShortCallContracts =
        nakedShortCallContracts positions (sharesBackingShortCalls positions stockQty) := by
      rw [computeRiskProfile, if_neg hne]
    rw [hnaked, nakedShortCallContracts_pos_iff]
    unfold hasUnlimitedDownside sharesBackingShortCalls
    dsimp only
    omega

/-- Capital at risk flags unbounded risk exactly when the payoff engine reports naked short
calls. -/
def CarAgreesWithPayoff (legs : List RiskPosition) (stockQty : ℤ)
    (spot envelopeMaxLoss avgCost : Option ℚ) : Prop :=
  (computeCar legs stockQty spot envelopeMaxLoss).hasUnbounded = true ↔
    0 < (computeRiskProfile legs (sharesBackingShortCalls legs stockQty)
      avgCost).nakedShortCallContracts

/-- The shares cover the net short calls and are used up before the last short call `q`: long
calls are its only cover. -/
def CoveredByCallsOnly (legs : List RiskPosition) (stockQty : ℤ) (q : RiskPosition) : Prop :=
  netShortCall legs - netLongCall legs ≤ max stockQty 0 ∧
    max stockQty 0 ≤ netShortCall legs - q.shares

/-- Some shares reach the last short call `q`, too few to cover the net short calls. -/
def CoveredInPart (legs : List RiskPosition) (stockQty : ℤ) (q : RiskPosition) : Prop :=
  netShortCall legs - q.shares < max stockQty 0 ∧
    max stockQty 0 < netShortCall legs - netLongCall legs

/-- The two agree unless the last short call in assignment order is covered by calls only or in
part. -/
theorem carAgreesWithPayoff_iff (legs : List RiskPosition) (stockQty : ℤ)
    (spot envelopeMaxLoss avgCost : Option ℚ) :
    CarAgreesWithPayoff legs stockQty spot envelopeMaxLoss avgCost ↔
      ∀ q ∈ lastShortCall (carOrder legs),
        ¬ CoveredByCallsOnly legs stockQty q ∧ ¬ CoveredInPart legs stockQty q := by
  unfold CarAgreesWithPayoff CoveredByCallsOnly CoveredInPart
  rw [computeCar_hasUnbounded_iff, naked_pos_iff_stock_lt]
  cases hlast : lastShortCall (carOrder legs) with
  | none =>
    have hnet : netShortCall legs = 0 := by
      rw [← netShortCall_perm (carOrder_perm legs)]
      exact netShortCall_of_lastShortCall_eq_none hlast
    have hl := netLongCall_nonneg legs
    simp [hnet]
    omega
  | some q =>
    simp only [Option.mem_some_iff, exists_eq_left', forall_eq']
    omega

/-- A call spread with no stock: the loss is bounded and capital at risk says it is not. -/
theorem not_carAgreesWithPayoff_call_spread :
    ¬ CarAgreesWithPayoff [⟨50, .C, 1, 1, none⟩, ⟨60, .C, -1, 1 / 2, none⟩] 0 (some 55) none
      none := by
  unfold CarAgreesWithPayoff
  decide +kernel

end Portfolio
