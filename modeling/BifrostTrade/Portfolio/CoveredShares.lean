import BifrostTrade.Portfolio.CapitalAtRisk

/-!
# Covered shares

`compute_model_analysis` hands the payoff engine `shares_backing_short_calls`, while capital at
risk values the shares its own walk hands out.  The walk does not see the long calls, so the two
counts part where long calls cover a part of the short ones (`coverCountsAgree_iff`).  And where
the price paid for the stock is missing, the payoff keeps the shares as cover and drops their gain,
so a bounded loss is reported for a P&L that has no bound (`lossBoundSound_iff`).
-/

namespace Portfolio

open Py

/-! ## Shares valued by capital at risk -/

/-- The shares a leg is valued as covered by: `covered` of `_compute_car_per_leg`. -/
def legCovered (p : RiskPosition) (sharesAvailable : ℤ) : ℤ :=
  if p.IsShortCall then min p.shares (max sharesAvailable 0) else 0

/-- The shares the loop over the legs values, from a state of its variables on. -/
def coveredFrom (spot : Option ℚ) : CarState → List RiskPosition → ℤ
  | _, [] => 0
  | st, p :: ps => legCovered p st.remainingShares + coveredFrom spot (carStep spot st p) ps

/-- The shares `_compute_car` values as backing short calls. -/
def carCoveredShares (optPositions : List RiskPosition) (stockQty : ℤ) (spot : Option ℚ) : ℤ :=
  coveredFrom spot ⟨[], 0, false, max stockQty 0⟩ (carOrder optPositions)

/-- What a leg that is no short call commits. -/
def uncoveredCar (p : RiskPosition) : ℚ :=
  if 0 < p.qty then |p.avgCost| * p.shares
  else if p.right = .P ∧ p.qty < 0 then p.strike * p.shares
  else 0

theorem uncoveredCar_of_shortCall {p : RiskPosition} (h : p.IsShortCall) : uncoveredCar p = 0 := by
  have hput : ¬ (p.right = .P ∧ p.qty < 0) := fun hput => by simp [h.1] at hput
  rw [uncoveredCar, if_neg (by have := h.2; omega), if_neg hput]

/-- At a price, a leg's capital is that of its covered shares and what it commits without them. -/
theorem totalLeg_carStep {spot : ℚ} (hspot : 0 < spot) (st : CarState) (p : RiskPosition) :
    (carStep (some spot) st p).totalLeg =
      st.totalLeg + uncoveredCar p + spot * legCovered p st.remainingShares := by
  unfold carStep computeCarPerLeg
  by_cases hlong : 0 < p.qty
  · have hns : ¬ p.IsShortCall := fun h => absurd h.2 (by omega)
    simp [hlong, hns, uncoveredCar, legCovered]
  by_cases hput : p.right = .P ∧ p.qty < 0
  · have hns : ¬ p.IsShortCall := fun h => by simp [h.1] at hput
    simp [hlong, hput, hns, uncoveredCar, legCovered]
  by_cases hsc : p.IsShortCall
  · have hpos := hsc.shares_pos
    rw [if_neg hlong, if_neg hput, if_pos hsc, uncoveredCar_of_shortCall hsc, legCovered,
      if_pos hsc]
    by_cases hcov : min p.shares (max st.remainingShares 0) ≤ 0
    · have hzero : min p.shares (max st.remainingShares 0) = 0 := by omega
      simp [hzero]
    · simp [hcov, not_le.2 hspot]
  · simp [hlong, hput, hsc, uncoveredCar, legCovered]

/-- The committed capital values the covered shares at the spot price, and nothing else of the
short calls. -/
theorem totalLeg_carWalk (optPositions : List RiskPosition) (stockQty : ℤ) {spot : ℚ}
    (hspot : 0 < spot) :
    (carWalk optPositions stockQty (some spot)).totalLeg =
      (optPositions.map uncoveredCar).sum +
        spot * carCoveredShares optPositions stockQty (some spot) := by
  have hfold : ∀ ps st, (ps.foldl (carStep (some spot)) st).totalLeg =
      st.totalLeg + (ps.map uncoveredCar).sum + spot * coveredFrom (some spot) st ps := by
    intro ps
    induction ps with
    | nil => simp [coveredFrom]
    | cons p ps ih =>
      intro st
      rw [List.foldl_cons, ih, totalLeg_carStep hspot, List.map_cons, List.sum_cons, coveredFrom]
      push_cast
      ring
  rw [carWalk, hfold, carCoveredShares, zero_add,
    ((carOrder_perm optPositions).map uncoveredCar).sum_eq]

/-- The loop values the shares it has until the short calls are covered. -/
theorem coveredFrom_eq (spot : Option ℚ) (ps : List RiskPosition) (st : CarState)
    (hrem : 0 ≤ st.remainingShares) :
    coveredFrom spot st ps = min st.remainingShares (netShortCall ps) := by
  induction ps generalizing st with
  | nil => simpa [coveredFrom, netShortCall] using hrem
  | cons p ps ih =>
    obtain ⟨-, hrest⟩ := carStep_spec spot st p hrem
    have hshares := p.shares_nonneg
    have hnet := netShortCall_nonneg ps
    rw [coveredFrom, ih _ (by rw [hrest]; split_ifs <;> omega), hrest, netShortCall_cons,
      legCovered]
    split_ifs <;> omega

theorem carCoveredShares_eq (optPositions : List RiskPosition) (stockQty : ℤ)
    (spot : Option ℚ) :
    carCoveredShares optPositions stockQty spot =
      min (max stockQty 0) (netShortCall optPositions) := by
  rw [carCoveredShares, coveredFrom_eq _ _ _ (le_max_right _ _),
    netShortCall_perm (carOrder_perm optPositions)]

/-! ## The two counts -/

/-- Capital at risk values the shares that the payoff engine models. -/
def CoverCountsAgree (legs : List RiskPosition) (stockQty : ℤ) (spot : Option ℚ) : Prop :=
  carCoveredShares legs stockQty spot = sharesBackingShortCalls legs stockQty

instance (legs : List RiskPosition) (stockQty : ℤ) (spot : Option ℚ) :
    Decidable (CoverCountsAgree legs stockQty spot) := inferInstanceAs (Decidable (_ = _))

/-- The counts agree exactly when there are no shares, no short calls or no long calls, or so few
shares that the long calls' part of the cover is not reached. -/
theorem coverCountsAgree_iff (legs : List RiskPosition) (stockQty : ℤ) (spot : Option ℚ) :
    CoverCountsAgree legs stockQty spot ↔
      stockQty ≤ 0 ∨ netShortCall legs = 0 ∨ netLongCall legs = 0 ∨
        stockQty ≤ netShortCall legs - netLongCall legs := by
  have hshort := netShortCall_nonneg legs
  have hlong := netLongCall_nonneg legs
  unfold CoverCountsAgree sharesBackingShortCalls
  rw [carCoveredShares_eq]
  dsimp only
  omega

/-- A hundred shares and a covered call that a long call covers as well. -/
theorem not_coverCountsAgree_call_spread :
    ¬ CoverCountsAgree [⟨50, .C, 1, 1, none⟩, ⟨60, .C, -1, 1 / 2, none⟩] 100 (some 55) := by
  decide +kernel

/-! ## A loss bound without the price paid -/

/-- A reported loss is a lower bound of the modelled P&L, and none is reported where the P&L has no
lower bound. -/
def LossBoundSound (legs : List RiskPosition) (coveredShares : ℤ) (avgCost : Option ℚ) : Prop :=
  let values := payoffTotal legs coveredShares avgCost '' Set.Ici 0
  let maxLoss := (computeRiskProfile legs coveredShares avgCost).maxLoss
  (∀ v, maxLoss = some v → ∃ b ∈ lowerBounds values, v = round2 b) ∧
    (¬ BddBelow values → maxLoss = none)

/-- Without a price paid the stock adds nothing to the payoff. -/
theorem payoffTotal_none (legs : List RiskPosition) (coveredShares : ℤ) :
    payoffTotal legs coveredShares none = payoffOptionsAtPrice legs :=
  funext fun _ => add_zero _

/-- Short calls that only shares cover lose without bound in the payoff of the options. -/
theorem not_bddBelow_of_backing {legs : List RiskPosition} {stockQty : ℤ}
    (hback : 0 < sharesBackingShortCalls legs stockQty) :
    ¬ BddBelow (payoffTotal legs (sharesBackingShortCalls legs stockQty) none '' Set.Ici 0) := by
  have hslope : callSlope legs < 0 := by
    unfold sharesBackingShortCalls at hback
    unfold callSlope
    dsimp only at hback
    omega
  rw [payoffTotal_none]
  exact (payoffOptionsAtPrice_piecewiseLinear legs).not_bddBelow_of_slope (by exact_mod_cast hslope)

/-- With shares backing short calls and no price paid, the loss is sound exactly when the shares
are too few for the short calls, so that none is reported. -/
theorem lossBoundSound_iff {legs : List RiskPosition} {stockQty : ℤ} (hne : legs ≠ [])
    (hback : 0 < sharesBackingShortCalls legs stockQty) :
    LossBoundSound legs (sharesBackingShortCalls legs stockQty) none ↔
      stockQty < netShortCall legs - netLongCall legs := by
  obtain ⟨low, -, -, -, -, -, hloss, -⟩ :=
    computeEnvelope_spec hne (sharesBackingShortCalls legs stockQty) none
  have hmax := computeRiskProfile_maxLoss hne (sharesBackingShortCalls legs stockQty) none
  rw [hloss] at hmax
  have hdown : hasUnlimitedDownside legs (sharesBackingShortCalls legs stockQty) ↔
      stockQty < netShortCall legs - netLongCall legs := by
    unfold sharesBackingShortCalls at hback
    unfold hasUnlimitedDownside sharesBackingShortCalls
    dsimp only at hback ⊢
    omega
  rw [← hdown]
  constructor
  · intro hsound
    by_contra hbounded
    rw [if_neg hbounded] at hmax
    have hnone := hsound.2 (not_bddBelow_of_backing hback)
    rw [hmax] at hnone
    cases hnone
  · intro hunlimited
    rw [if_pos hunlimited] at hmax
    refine ⟨fun v hv => ?_, fun _ => hmax⟩
    rw [hmax] at hv
    cases hv

theorem lossBoundSound_iff_part_covered :
    LossBoundSound [⟨50, .C, -2, 2, none⟩] (sharesBackingShortCalls [⟨50, .C, -2, 2, none⟩] 100)
      none ↔ (100 : ℤ) < netShortCall [⟨50, .C, -2, 2, none⟩] -
        netLongCall [⟨50, .C, -2, 2, none⟩] :=
  lossBoundSound_iff (by decide) (by decide)

/-- A covered call on shares without a price paid: the loss of the options has no bound, and a loss
of 4800 is reported. -/
theorem not_lossBoundSound_covered_call :
    ¬ LossBoundSound [⟨50, .C, -1, 2, none⟩] (sharesBackingShortCalls [⟨50, .C, -1, 2, none⟩] 100)
      none := by
  intro hsound
  have hloss : (computeRiskProfile [⟨50, .C, -1, 2, none⟩]
      (sharesBackingShortCalls [⟨50, .C, -1, 2, none⟩] 100) none).maxLoss ≠ none := by
    decide +kernel
  exact hloss (hsound.2 (not_bddBelow_of_backing (by decide)))

end Portfolio
