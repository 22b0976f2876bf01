import BifrostTrade.Lib.PiecewiseLinear
import BifrostTrade.Portfolio.Payoff
import Mathlib.Algebra.Order.BigOperators.Group.List
import Mathlib.Tactic.NormNum
import Mathlib.Tactic.Push

/-!
# The payoff extremes are exact

The payoff of a structure is piecewise linear in the underlying price, with its kinks at the
strikes and the slope `callSlope + coveredShares` at infinity.  The grid holds zero and every
strike, so the extremes over the grid are the extremes over all prices, when there are any.
-/

namespace Portfolio

open Py

/-! ## Slopes -/

/-- Slope of the intrinsic value of one share at infinity. -/
def intrinsicSlope : Right → ℚ
  | .C => 1
  | .P => 0

/-- Slope of a leg's payoff at infinity. -/
def legSlope (p : RiskPosition) : ℚ := intrinsicSlope p.right * (p.qty * 100)

/-- Slope of the options' payoff at infinity. -/
def callSlope (positions : List RiskPosition) : ℤ :=
  netLongCall positions - netShortCall positions

theorem legPayoff_eq (p : RiskPosition) (price : ℚ) :
    legPayoff p price = (intrinsic p price - p.avgCost) * (p.qty * 100) := by
  unfold legPayoff RiskPosition.shares
  split_ifs with h
  · rw [abs_of_pos h]
    push_cast
    rfl
  · rw [abs_of_nonpos (not_lt.1 h)]
    push_cast
    ring

theorem intrinsic_piecewiseLinear (p : RiskPosition) :
    PiecewiseLinear (intrinsic p) [p.strike] (intrinsicSlope p.right) := by
  rcases hr : p.right with _ | _
  · have h : intrinsic p = fun x => max (x - p.strike) 0 := by
      funext x
      rw [intrinsic, hr]
    rw [h]
    exact PiecewiseLinear.hinge_above p.strike
  · have h : intrinsic p = fun x => max (p.strike - x) 0 := by
      funext x
      rw [intrinsic, hr]
    rw [h]
    exact PiecewiseLinear.hinge_below p.strike

theorem legPayoff_piecewiseLinear (p : RiskPosition) :
    PiecewiseLinear (legPayoff p) [p.strike] (legSlope p) := by
  have h := ((intrinsic_piecewiseLinear p).sub_const p.avgCost).mul_const (p.qty * 100)
  simp only [← legPayoff_eq] at h
  exact h

theorem netShortCall_cons (p : RiskPosition) (ps : List RiskPosition) :
    netShortCall (p :: ps) = (if p.IsShortCall then p.shares else 0) + netShortCall ps := by
  unfold netShortCall
  by_cases h : p.IsShortCall <;> simp [h]

theorem netLongCall_cons (p : RiskPosition) (ps : List RiskPosition) :
    netLongCall (p :: ps) =
      (if p.right = .C ∧ 0 < p.qty then p.qty * 100 else 0) + netLongCall ps := by
  unfold netLongCall
  by_cases h : p.right = .C ∧ 0 < p.qty <;> simp [h]

theorem legSlope_eq (p : RiskPosition) :
    legSlope p = ((if p.right = .C ∧ 0 < p.qty then p.qty * 100 else 0) -
      (if p.IsShortCall then p.shares else 0) : ℤ) := by
  have hsc : p.IsShortCall ↔ p.right = .C ∧ p.qty < 0 := Iff.rfl
  rcases hr : p.right with _ | _
  · rcases lt_trichotomy p.qty 0 with hq | hq | hq
    · simp [legSlope, hsc, hr, intrinsicSlope, RiskPosition.shares, hq, hq.not_gt, abs_of_neg hq]
    · simp [legSlope, hsc, intrinsicSlope, hq]
    · simp [legSlope, hsc, hr, intrinsicSlope, hq, hq.not_gt]
  · simp [legSlope, hsc, hr, intrinsicSlope]

theorem legSlope_sum (positions : List RiskPosition) :
    (positions.map legSlope).sum = callSlope positions := by
  induction positions with
  | nil => rfl
  | cons p positions ih =>
    rw [List.map_cons, List.sum_cons, ih, legSlope_eq, ← Int.cast_add]
    simp only [callSlope, netShortCall_cons, netLongCall_cons]
    congr 1
    ring

theorem payoffOptionsAtPrice_piecewiseLinear (positions : List RiskPosition) :
    PiecewiseLinear (payoffOptionsAtPrice positions) (positions.map RiskPosition.strike)
      (callSlope positions) := by
  rw [← legSlope_sum]
  refine PiecewiseLinear.sum_map legPayoff legSlope positions fun p hp => ?_
  refine (legPayoff_piecewiseLinear p).mono fun k hk => ?_
  rw [List.mem_singleton.1 hk]
  exact List.mem_map_of_mem hp

theorem payoffStockAtPrice_piecewiseLinear {coveredShares : ℤ} {avgCost : Option ℚ}
    (kinks : List ℚ) (hcov : 0 ≤ coveredShares) (hcost : coveredShares = 0 ∨ avgCost.isSome) :
    PiecewiseLinear (payoffStockAtPrice coveredShares avgCost) kinks coveredShares := by
  rcases hcov.eq_or_lt with h0 | hpos
  · have h : payoffStockAtPrice coveredShares avgCost = fun x => 0 + 0 * x := by
      funext x
      cases avgCost <;> simp [payoffStockAtPrice, ← h0]
    rw [h, ← h0, Int.cast_zero]
    exact PiecewiseLinear.affine 0 0 kinks
  · obtain ⟨cost, rfl⟩ := Option.isSome_iff_exists.1 (hcost.resolve_left hpos.ne')
    have h : payoffStockAtPrice coveredShares (some cost) =
        fun x => -cost * coveredShares + coveredShares * x := by
      funext x
      rw [payoffStockAtPrice, if_neg hpos.not_ge]
      ring
    rw [h]
    exact PiecewiseLinear.affine _ _ kinks

/-- The payoff of the whole structure, with its slope at infinity. -/
theorem payoffTotal_piecewiseLinear (positions : List RiskPosition) {coveredShares : ℤ}
    {avgCost : Option ℚ} (hcov : 0 ≤ coveredShares)
    (hcost : coveredShares = 0 ∨ avgCost.isSome) :
    PiecewiseLinear (payoffTotal positions coveredShares avgCost)
      (positions.map RiskPosition.strike) ((callSlope positions + coveredShares : ℤ) : ℚ) := by
  rw [Int.cast_add]
  exact (payoffOptionsAtPrice_piecewiseLinear positions).add
    (payoffStockAtPrice_piecewiseLinear _ hcov hcost)

/-! ## The grid -/

@[simp] theorem mem_sortedStrikes {positions : List RiskPosition} {x : ℚ} :
    x ∈ sortedStrikes positions ↔ x ∈ positions.map RiskPosition.strike := by
  rw [sortedStrikes, mem_sortedBy, List.mem_dedup]

theorem strikes_subset_pricePoints (positions : List RiskPosition) :
    positions.map RiskPosition.strike ⊆ pricePoints positions := by
  intro x hx
  simp only [pricePoints, List.cons_append, List.mem_cons, List.mem_append]
  exact Or.inr (Or.inl (mem_sortedStrikes.2 hx))

theorem zero_mem_pricePoints (positions : List RiskPosition) : 0 ∈ pricePoints positions :=
  List.mem_cons_self ..

theorem pricePoints_nonneg {positions : List RiskPosition} (hk : ∀ p ∈ positions, 0 ≤ p.strike) :
    ∀ x ∈ pricePoints positions, 0 ≤ x := by
  have hs : ∀ x ∈ sortedStrikes positions, 0 ≤ x := by
    intro x hx
    obtain ⟨p, hp, rfl⟩ := List.mem_map.1 (mem_sortedStrikes.1 hx)
    exact hk p hp
  intro x hx
  simp only [pricePoints, List.cons_append, List.mem_cons, List.mem_append, Option.mem_toList,
    Option.map_eq_some_iff] at hx
  rcases hx with rfl | hx | ⟨k, hlast, rfl⟩
  · exact le_rfl
  · exact hs x hx
  · exact mul_nonneg (hs k (List.mem_of_getLast? hlast)) (by norm_num)

theorem getRiskGridRows_of_held {positions : List RiskPosition} {coveredShares : ℤ}
    (h : positions ≠ [] ∨ 0 < coveredShares) (avgCost : Option ℚ) :
    getRiskGridRows positions coveredShares avgCost =
      (pricePoints positions).map (gridRow positions coveredShares avgCost) :=
  if_neg fun h' => h.elim (fun hne => hne h'.1) fun hpos => hpos.not_ge h'.2

/-- With a leg or a share held, the envelope is read off a lowest and a highest row of the grid. -/
theorem computeEnvelope_of_held {positions : List RiskPosition} {coveredShares : ℤ}
    (h : positions ≠ [] ∨ 0 < coveredShares) (avgCost : Option ℚ) :
    ∃ low ∈ pricePoints positions, ∃ high ∈ pricePoints positions,
      (∀ x ∈ pricePoints positions, payoffTotal positions coveredShares avgCost low ≤
        payoffTotal positions coveredShares avgCost x) ∧
      (∀ x ∈ pricePoints positions, payoffTotal positions coveredShares avgCost x ≤
        payoffTotal positions coveredShares avgCost high) ∧
      (computeEnvelope positions coveredShares avgCost).maxLoss =
        (if hasUnlimitedDownside positions coveredShares then none
          else some (payoffTotal positions coveredShares avgCost low)) ∧
      (computeEnvelope positions coveredShares avgCost).maxGain =
        (if hasUnlimitedUpside positions coveredShares then none
          else some (payoffTotal positions coveredShares avgCost high)) := by
  have hrows := getRiskGridRows_of_held h avgCost
  have hne : getRiskGridRows positions coveredShares avgCost ≠ [] := by
    rw [hrows]
    simp [pricePoints]
  obtain ⟨rmin, hmin⟩ := Option.ne_none_iff_exists'.1 
    ((List.argmin_eq_none (f := GridRow.total)).not.2 hne)
  obtain ⟨rmax, hmax⟩ := Option.ne_none_iff_exists'.1 
    ((List.argmax_eq_none (f := GridRow.total)).not.2 hne)
  have hrmin := List.argmin_mem hmin
  have hrmax := List.argmax_mem hmax
  rw [hrows] at hrmin hrmax
  obtain ⟨low, hlow, rfl⟩ := List.mem_map.1 hrmin
  obtain ⟨high, hhigh, rfl⟩ := List.mem_map.1 hrmax
  have hrow : ∀ x ∈ pricePoints positions, gridRow positions coveredShares avgCost x ∈
      getRiskGridRows positions coveredShares avgCost := by
    rw [hrows]
    exact fun x hx => List.mem_map_of_mem hx
  refine ⟨low, hlow, high, hhigh, fun x hx => ?_, fun x hx => ?_, ?_, ?_⟩
  · exact List.le_of_mem_argmin (f := GridRow.total) (hrow x hx) hmin
  · exact List.le_of_mem_argmax (f := GridRow.total) (hrow x hx) hmax
  · simp only [computeEnvelope, hmin, hmax, gridRow]
  · simp only [computeEnvelope, hmin, hmax, gridRow]

theorem computeEnvelope_spec {positions : List RiskPosition} (h : positions ≠ [])
    (coveredShares : ℤ) (avgCost : Option ℚ) :
    ∃ low ∈ pricePoints positions, ∃ high ∈ pricePoints positions,
      (∀ x ∈ pricePoints positions, payoffTotal positions coveredShares avgCost low ≤
        payoffTotal positions coveredShares avgCost x) ∧
      (∀ x ∈ pricePoints positions, payoffTotal positions coveredShares avgCost x ≤
        payoffTotal positions coveredShares avgCost high) ∧
      (computeEnvelope positions coveredShares avgCost).maxLoss =
        (if hasUnlimitedDownside positions coveredShares then none
          else some (payoffTotal positions coveredShares avgCost low)) ∧
      (computeEnvelope positions coveredShares avgCost).maxGain =
        (if hasUnlimitedUpside positions coveredShares then none
          else some (payoffTotal positions coveredShares avgCost high)) :=
  computeEnvelope_of_held (.inl h) avgCost

theorem hasUnlimitedDownside_iff (positions : List RiskPosition) (coveredShares : ℤ) :
    hasUnlimitedDownside positions coveredShares ↔ callSlope positions + coveredShares < 0 := by
  unfold hasUnlimitedDownside callSlope
  omega

/-! ## Max loss -/

/-- The reported max loss is the rounded minimum of the payoff over all prices, and none exactly
when there is no lower bound. -/
def MaxLossExact (positions : List RiskPosition) (coveredShares : ℤ) (avgCost : Option ℚ) :
    Prop :=
  let values := payoffTotal positions coveredShares avgCost '' Set.Ici 0
  let maxLoss := (computeRiskProfile positions coveredShares avgCost).maxLoss
  (maxLoss = none ↔ ¬ BddBelow values) ∧
    ∀ v, maxLoss = some v → ∃ m, IsLeast values m ∧ v = round2 m

theorem computeRiskProfile_maxLoss {positions : List RiskPosition} (h : positions ≠ [])
    (coveredShares : ℤ) (avgCost : Option ℚ) :
    (computeRiskProfile positions coveredShares avgCost).maxLoss =
      (computeEnvelope positions coveredShares avgCost).maxLoss.map round2 := by
  rw [computeRiskProfile, if_neg h]

theorem computeRiskProfile_maxGain {positions : List RiskPosition} (h : positions ≠ [])
    (coveredShares : ℤ) (avgCost : Option ℚ) :
    (computeRiskProfile positions coveredShares avgCost).maxGain =
      (computeEnvelope positions coveredShares avgCost).maxGain.map round2 := by
  rw [computeRiskProfile, if_neg h]

/-- Without an unlimited downside the envelope's max loss is the minimum of the payoff over all
prices. -/
theorem isLeast_of_computeEnvelope {positions : List RiskPosition} {coveredShares : ℤ}
    {avgCost : Option ℚ} (hstrike : ∀ p ∈ positions, 0 ≤ p.strike) (hcov : 0 ≤ coveredShares)
    (hcost : coveredShares = 0 ∨ avgCost.isSome)
    (hbounded : ¬ hasUnlimitedDownside positions coveredShares) :
    ∃ m, IsLeast (payoffTotal positions coveredShares avgCost '' Set.Ici 0) m ∧
      (computeEnvelope positions coveredShares avgCost).maxLoss = some m := by
  have hslope : 0 ≤ callSlope positions + coveredShares :=
    not_lt.1 (mt (hasUnlimitedDownside_iff positions coveredShares).2 hbounded)
  by_cases hheld : positions ≠ [] ∨ 0 < coveredShares
  · obtain ⟨low, hlow, -, -, hmin, -, hloss, -⟩ := computeEnvelope_of_held hheld avgCost
    rw [if_neg hbounded] at hloss
    refine ⟨_, ?_, hloss⟩
    exact (payoffTotal_piecewiseLinear positions hcov hcost).isLeast_of_slope
      (by exact_mod_cast hslope) (zero_mem_pricePoints positions)
      (strikes_subset_pricePoints positions) (pricePoints_nonneg hstrike) ⟨low, hlow, rfl⟩ hmin
  · -- nothing held: the payoff is zero at every price
    obtain ⟨hnil, hnone⟩ := not_or.1 hheld
    obtain rfl : positions = [] := not_ne_iff.1 hnil
    obtain rfl : coveredShares = 0 := le_antisymm (not_lt.1 hnone) hcov
    have hzero : ∀ x, payoffTotal [] 0 avgCost x = 0 := by
      intro x
      cases avgCost <;> simp [payoffTotal, payoffOptionsAtPrice, payoffStockAtPrice]
    refine ⟨0, ⟨⟨0, le_refl (0 : ℚ), hzero 0⟩, ?_⟩, rfl⟩
    rintro v ⟨x, -, rfl⟩
    exact (hzero x).ge

/-- Max loss is exact. -/
theorem maxLossExact {positions : List RiskPosition} {coveredShares : ℤ} {avgCost : Option ℚ}
    (hne : positions ≠ []) (hstrike : ∀ p ∈ positions, 0 ≤ p.strike) (hcov : 0 ≤ coveredShares)
    (hcost : coveredShares = 0 ∨ avgCost.isSome) :
    MaxLossExact positions coveredShares avgCost := by
  have hpl := payoffTotal_piecewiseLinear positions hcov hcost
  obtain ⟨low, -, -, -, -, -, hloss, -⟩ := computeEnvelope_spec hne coveredShares avgCost
  simp only [MaxLossExact, computeRiskProfile_maxLoss hne, hloss]
  by_cases hslope : callSlope positions + coveredShares < 0
  · have hunb := hpl.not_bddBelow_of_slope (by exact_mod_cast hslope)
    rw [if_pos ((hasUnlimitedDownside_iff positions coveredShares).2 hslope)]
    exact ⟨iff_of_true rfl hunb, fun v hv => by cases hv⟩
  · have hbounded := mt (hasUnlimitedDownside_iff positions coveredShares).1 hslope
    obtain ⟨m, hleast, hm⟩ := isLeast_of_computeEnvelope hstrike hcov hcost hbounded
    rw [← hloss, hm]
    refine ⟨iff_of_false (by simp) (not_not.2 ⟨_, hleast.2⟩), fun v hv => ?_⟩
    cases hv
    exact ⟨_, hleast, rfl⟩

/-- A covered call: the loss is the price of the shares less the premium. -/
theorem maxLossExact_covered_call :
    MaxLossExact [⟨50, .C, -1, 2, none⟩] 100 (some 40) :=
  maxLossExact (by decide) (by decide) (by decide) (by decide)

/-! ## Max gain -/

/-- The reported max gain is the rounded maximum of the payoff over all prices, and none exactly
when there is no upper bound. -/
def MaxGainExact (positions : List RiskPosition) (coveredShares : ℤ) (avgCost : Option ℚ) :
    Prop :=
  let values := payoffTotal positions coveredShares avgCost '' Set.Ici 0
  let maxGain := (computeRiskProfile positions coveredShares avgCost).maxGain
  (maxGain = none ↔ ¬ BddAbove values) ∧
    ∀ v, maxGain = some v → ∃ m, IsGreatest values m ∧ v = round2 m

/-- The shares of the cover and the long calls outweigh the short calls, yet neither do the long
calls alone outweigh the short calls and the cover, nor is there cover and no short call. -/
def UpsideMissed (positions : List RiskPosition) (coveredShares : ℤ) : Prop :=
  netShortCall positions < netLongCall positions + coveredShares ∧
    netLongCall positions ≤ netShortCall positions + coveredShares ∧
    (netShortCall positions ≠ 0 ∨ coveredShares = 0)

theorem netShortCall_nonneg (positions : List RiskPosition) : 0 ≤ netShortCall positions := by
  refine List.sum_nonneg fun x hx => ?_
  obtain ⟨p, -, rfl⟩ := List.mem_map.1 hx
  exact mul_nonneg (abs_nonneg _) (by norm_num)

theorem netLongCall_nonneg (positions : List RiskPosition) : 0 ≤ netLongCall positions := by
  refine List.sum_nonneg fun x hx => ?_
  obtain ⟨p, hp, rfl⟩ := List.mem_map.1 hx
  have hq : 0 < p.qty := (of_decide_eq_true (List.mem_filter.1 hp).2).2
  omega

theorem hasUnlimitedUpside_iff {positions : List RiskPosition} {coveredShares : ℤ}
    (hcov : 0 ≤ coveredShares) (h : ¬ UpsideMissed positions coveredShares) :
    hasUnlimitedUpside positions coveredShares ↔ 0 < callSlope positions + coveredShares := by
  have hs := netShortCall_nonneg positions
  have hl := netLongCall_nonneg positions
  unfold UpsideMissed at h
  unfold hasUnlimitedUpside callSlope
  omega

/-- Max gain is exact unless the upside of the cover is missed. -/
theorem maxGainExact_iff {positions : List RiskPosition} {coveredShares : ℤ} {avgCost : Option ℚ}
    (hne : positions ≠ []) (hstrike : ∀ p ∈ positions, 0 ≤ p.strike) (hcov : 0 ≤ coveredShares)
    (hcost : coveredShares = 0 ∨ avgCost.isSome) :
    MaxGainExact positions coveredShares avgCost ↔ ¬ UpsideMissed positions coveredShares := by
  have hpl := payoffTotal_piecewiseLinear positions hcov hcost
  obtain ⟨-, -, high, hhigh, -, hmax, -, hgain⟩ := computeEnvelope_spec hne coveredShares avgCost
  simp only [MaxGainExact, computeRiskProfile_maxGain hne, hgain]
  by_cases hmiss : UpsideMissed positions coveredShares
  · have hslope : 0 < callSlope positions + coveredShares := by
      unfold UpsideMissed at hmiss
      unfold callSlope
      omega
    have hunb := hpl.not_bddAbove_of_slope (by exact_mod_cast hslope)
    have hup : ¬ hasUnlimitedUpside positions coveredShares := by
      unfold UpsideMissed at hmiss
      unfold hasUnlimitedUpside
      omega
    rw [if_neg hup]
    refine iff_of_false (fun h => ?_) (not_not.2 hmiss)
    cases h.1.2 hunb
  · refine iff_of_true ?_ hmiss
    by_cases hslope : 0 < callSlope positions + coveredShares
    · have hunb := hpl.not_bddAbove_of_slope (by exact_mod_cast hslope)
      rw [if_pos ((hasUnlimitedUpside_iff hcov hmiss).2 hslope)]
      exact ⟨iff_of_true rfl hunb, fun v hv => by cases hv⟩
    · have hgreatest := hpl.isGreatest_of_slope (by exact_mod_cast not_lt.1 hslope)
        (zero_mem_pricePoints positions) (strikes_subset_pricePoints positions)
        (pricePoints_nonneg hstrike) ⟨high, hhigh, rfl⟩ hmax
      rw [if_neg (mt (hasUnlimitedUpside_iff hcov hmiss).1 hslope)]
      refine ⟨iff_of_false (by simp) (not_not.2 ⟨_, hgreatest.2⟩), fun v hv => ?_⟩
      cases hv
      exact ⟨_, hgreatest, rfl⟩

theorem maxGainExact_iff_covered_call :
    MaxGainExact [⟨50, .C, -1, 2, none⟩] 100 (some 40) ↔
      ¬ UpsideMissed [⟨50, .C, -1, 2, none⟩] 100 :=
  maxGainExact_iff (by decide) (by decide) (by decide) (by decide)

/-- A call spread over covered shares gains without bound, and a finite gain is reported. -/
theorem not_maxGainExact_covered_call_spread :
    ¬ MaxGainExact [⟨50, .C, 1, 1, none⟩, ⟨60, .C, -1, 1 / 2, none⟩] 100 (some 40) := by
  intro h
  have hcov : (0 : ℤ) ≤ 100 := by decide
  have hcost : (100 : ℤ) = 0 ∨ (some (40 : ℚ)).isSome := by decide
  have hpl := payoffTotal_piecewiseLinear
    [⟨50, .C, 1, 1, none⟩, ⟨60, .C, -1, 1 / 2, none⟩] hcov hcost
  have hnone := h.1.2 (hpl.not_bddAbove_of_slope (by decide +kernel))
  revert hnone
  decide +kernel

end Portfolio
