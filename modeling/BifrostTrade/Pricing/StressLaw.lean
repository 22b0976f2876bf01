import BifrostTrade.Pricing.ImpliedVol
import BifrostTrade.Pricing.StressMatrix

/-!
# What the stress table says

Over the real numbers the table is always built, and its rows are the P&L of the book at the shocked
spot and volatility, rounded.  So the delta reported beside it is the slope of that P&L at the spot,
but for the legs that are not repriced and a stock of unknown cost (`delta_isSlope`).
-/

noncomputable section

open Py Rounding
open Portfolio (RiskPosition Right)

namespace Pricing

open scoped Numerals

/-! ## The legs -/

/-- A leg with a volatility has time left and a strike. -/
def PricedLeg.Sound (l : PricedLeg ℝ) : Prop :=
  ∀ v ∈ l.iv, 0 < v ∧ 0 < l.years ∧ (0 : ℝ) < l.leg.strike

/-- The value of a leg in closed form. -/
def PricedLeg.closedValue (r : ℝ) (l : PricedLeg ℝ) (s ivShock : ℝ) : ℝ :=
  match l.usableIv with
  | some iv =>
      closedPrice s l.leg.strike l.years r (shockedVol iv ivShock) (rightText l.leg.right)
  | none => intrinsicValue s l.leg

/-- The P&L of the options. -/
def bookPnl (r : ℝ) (legs : List (PricedLeg ℝ)) (s ivShock : ℝ) : ℝ :=
  (legs.map fun l => legPnl l.leg (l.closedValue r s ivShock)).sum

theorem usableIv_eq_some {l : PricedLeg ℝ} {v : ℝ} :
    l.usableIv = some v ↔ l.iv = some v ∧ 0 < v ∧ 0 < l.years := by
  simp [PricedLeg.usableIv, Option.filter_eq_some_iff]

theorem shockedVol_pos (iv ivShock : ℝ) : 0 < shockedVol iv ivShock :=
  lt_of_lt_of_le (by norm_num) (le_max_right _ _)

theorem legPnl_eq (p : RiskPosition) (value : ℝ) :
    legPnl p value = (value - p.avgCost) * p.qty * 100 := by
  rw [legPnl]
  split
  · rw [abs_of_pos (by exact_mod_cast ‹0 < p.qty›)]
  · rw [abs_of_nonpos (by exact_mod_cast not_lt.1 ‹¬ 0 < p.qty›)]
    ring

variable (today : Date) (r : ℝ) (b : Book ℝ) {spot : ℝ}

theorem priceLeg_ok (spot : ℝ) (p : RiskPosition) :
    ∃ l, priceLeg realMath today r b spot p = .ok l ∧ l.leg = p ∧ l.Sound := by
  unfold priceLeg
  cases b.optMidPrices.lookup (p.strike, p.right, p.expiry) with
  | none => exact ⟨_, rfl, rfl, fun v hv => absurd hv (Option.not_mem_none v)⟩
  | some mid =>
    dsimp only
    split
    · rename_i hpriced
      obtain ⟨iv, hiv⟩ := ivPositionsModel_ok mid spot p.strike (yearsTo today (p.expiry.or
        b.farthestExpiry)) r (1 / 10 ^ 6) (rightText p.right) ((some (100 : ℤ)).getD 100).toNat
      rw [← impliedVol_positionsModel] at hiv
      refine ⟨⟨p, _, iv⟩, by rw [hiv]; rfl, rfl, fun v hv => ?_⟩
      obtain rfl : iv = some v := hv
      have hsolves := impliedVol_solves hiv
      exact ⟨lt_of_lt_of_le (by norm_num) hsolves.range.1, hpriced.2, hsolves.positive.2.2.2⟩
    · exact ⟨_, rfl, rfl, fun v hv => absurd hv (Option.not_mem_none v)⟩

/-- What a leg's volatility says of its mid. -/
theorem solves_of_priceLeg {p : RiskPosition} {l : PricedLeg ℝ}
    (h : priceLeg realMath today r b spot p = .ok l) {v : ℝ} (hv : v ∈ l.iv) :
    ∃ mid ∈ b.optMidPrices.lookup (p.strike, p.right, p.expiry),
      Solves realMath mid spot p.strike (yearsTo today (p.expiry.or b.farthestExpiry)) r
        (rightText p.right) "positions_model" (1 / 10 ^ 6) v := by
  unfold priceLeg at h
  cases hmid : b.optMidPrices.lookup (p.strike, p.right, p.expiry) with
  | none =>
    rw [hmid] at h
    obtain rfl := Except.ok.inj h
    cases hv
  | some mid =>
    rw [hmid] at h
    dsimp only at h
    split at h
    · obtain ⟨iv, hiv, hl⟩ := bind_ok_iff.1 h
      obtain rfl := Except.ok.inj hl
      obtain rfl : iv = some v := hv
      exact ⟨mid, rfl, impliedVol_solves hiv⟩
    · obtain rfl := Except.ok.inj h
      cases hv

theorem priceLegs_ok (spot : ℝ) :
    ∃ legs, b.optPositions.mapM (priceLeg realMath today r b spot) = .ok legs ∧
      legs.map PricedLeg.leg = b.optPositions ∧ ∀ l ∈ legs, l.Sound := by
  choose g hg hleg hsound using priceLeg_ok today r b spot
  refine ⟨b.optPositions.map g, mapM_ok fun p _ => hg p, ?_, ?_⟩
  · rw [List.map_map]
    exact List.map_id'' hleg _
  · intro l hl
    obtain ⟨p, -, rfl⟩ := List.mem_map.1 hl
    exact hsound p

section Reprice

variable {r} {l : PricedLeg ℝ} (hl : l.Sound) {s : ℝ} (hs : 0 < s) (ivShock : ℝ)

include hl hs

theorem legValue_ok : legValue realMath r s ivShock l = .ok (l.closedValue r s ivShock) := by
  unfold legValue PricedLeg.closedValue
  cases h : l.usableIv with
  | none => rfl
  | some iv =>
    obtain ⟨-, hyears, hstrike⟩ := hl iv (usableIv_eq_some.1 h).1
    exact price_of_pos hs hstrike hyears (shockedVol_pos _ _) _ false

end Reprice

theorem repricedPnl_ok {legs : List (PricedLeg ℝ)} (hlegs : ∀ l ∈ legs, l.Sound) {s : ℝ}
    (hs : 0 < s) (ivShock : ℝ) :
    repricedPnl realMath r legs s ivShock = .ok (bookPnl r legs s ivShock) := by
  rw [repricedPnl, mapM_ok fun l hl => legValue_ok (hlegs l hl) hs ivShock]
  simp only [bind, Except.bind, bookPnl, List.zipWith_map_right, List.zipWith_self]
  rfl

/-! ## The table -/

/-- The pairs of shocks, in the order of the rows. -/
def shockGrid (ivAvailable : Bool) : List (ℝ × ℝ) :=
  spotShocks.flatMap fun spotShock =>
    (if ivAvailable then 0 :: ivShocks else [0]).map fun ivShock => (spotShock, ivShock)

/-- Whether some leg implies a volatility. -/
def ivAvailable (legs : List (PricedLeg ℝ)) : Bool := legs.any fun l => l.iv.isSome

/-- How the rows of a book are priced. -/
def rowMethod (legs : List (PricedLeg ℝ)) : StressMethod :=
  if ivAvailable legs then
    if legs.all fun l => l.usableIv.isSome then .bsReprice else .mixedIntrinsic
  else .intrinsic

/-- Options and stock together. -/
def totalPnl (legs : List (PricedLeg ℝ)) (spot : ℝ) (shocks : ℝ × ℝ) : ℝ :=
  bookPnl r legs (spot * (1 + shocks.1)) shocks.2 + stockPnl b (spot * (1 + shocks.1))

/-- The row of two shocks, before the changes are stamped. -/
def plainRow (legs : List (PricedLeg ℝ)) (spot : ℝ) (shocks : ℝ × ℝ) : StressRow ℝ :=
  stressRow spot (stockPnl b (spot * (1 + shocks.1))) shocks.1 shocks.2
    (bookPnl r legs (spot * (1 + shocks.1)) shocks.2) (rowMethod legs)

/-- A row of the table. -/
def tableRow (legs : List (PricedLeg ℝ)) (spot : ℝ) (shocks : ℝ × ℝ) : StressRow ℝ :=
  { plainRow r b legs spot shocks with
    pnlChange := some (places 2 (totalPnl r b legs spot shocks) -
      places 2 (totalPnl r b legs spot (0, 0))) }

theorem mem_shockGrid {iv : Bool} {shocks : ℝ × ℝ} : shocks ∈ shockGrid iv ↔
    shocks.1 ∈ spotShocks ∧ (shocks.2 = 0 ∨ iv = true ∧ shocks.2 ∈ ivShocks) := by
  rw [shockGrid, List.mem_flatMap]
  constructor
  · rintro ⟨spotShock, hspot, h⟩
    obtain ⟨ivShock, hiv, rfl⟩ := List.mem_map.1 h
    refine ⟨hspot, ?_⟩
    cases iv with
    | true => exact (List.mem_cons.1 hiv).imp_right fun h => ⟨rfl, h⟩
    | false => exact .inl (List.mem_singleton.1 hiv)
  · rintro ⟨hspot, h⟩
    refine ⟨shocks.1, hspot, List.mem_map.2 ⟨shocks.2, ?_, rfl⟩⟩
    rcases h with h | ⟨rfl, h⟩
    · rw [h]
      cases iv with
      | true => exact List.mem_cons_self
      | false => exact List.mem_cons_self
    · exact List.mem_cons_of_mem _ h

theorem zero_mem_shockGrid (iv : Bool) : (0, 0) ∈ shockGrid iv :=
  mem_shockGrid.2 ⟨by simp [spotShocks], .inl rfl⟩

theorem shock_pos {spotShock : ℝ} (h : spotShock ∈ spotShocks) : 0 < 1 + spotShock := by
  simp only [spotShocks, List.mem_cons, List.not_mem_nil, or_false] at h
  rcases h with rfl | rfl | rfl | rfl | rfl | rfl | rfl <;> norm_num

section Rows

variable {legs : List (PricedLeg ℝ)} (hlegs : ∀ l ∈ legs, l.Sound)

/-- Without a volatility every leg is worth its intrinsic value. -/
theorem bookPnl_intrinsic (h : ivAvailable legs = false) (s ivShock : ℝ) :
    bookPnl r legs s ivShock = intrinsicPnl legs s := by
  refine congrArg List.sum (List.map_congr_left fun l hl => ?_)
  have hnone : l.iv = none := by
    rw [← Option.isNone_iff_eq_none]
    simpa using List.any_eq_false.1 h l hl
  rw [PricedLeg.closedValue, PricedLeg.usableIv, hnone]
  rfl

include hlegs

theorem years_of_ivAvailable (h : ivAvailable legs = true) :
    (legs.any fun l => decide (0 < l.years)) = true := by
  obtain ⟨l, hl, hiv⟩ := List.any_eq_true.1 h
  obtain ⟨v, hv⟩ := Option.isSome_iff_exists.1 hiv
  exact List.any_eq_true.2 ⟨l, hl, decide_eq_true (hlegs l hl v hv).2.1⟩

theorem shockRows_ok (hspot : 0 < spot) {spotShock : ℝ} (hshock : 0 < 1 + spotShock) :
    shockRows realMath r b spot legs spotShock =
      .ok ((if ivAvailable legs then 0 :: ivShocks else [0]).map fun ivShock =>
        plainRow r b legs spot (spotShock, ivShock)) := by
  have hnew : 0 < spot * (1 + spotShock) := mul_pos hspot hshock
  unfold shockRows plainRow rowMethod
  dsimp only
  cases h : ivAvailable legs with
  | true =>
    rw [if_pos ⟨h, years_of_ivAvailable hlegs h⟩]
    refine mapM_ok fun ivShock _ => ?_
    rw [repricedPnl_ok r hlegs hnew]
    rfl
  | false =>
    rw [if_neg fun hboth => absurd (hboth.1.symm.trans h) (by decide),
      ← bookPnl_intrinsic r h _ 0]
    rfl

end Rows

theorem stampPnlChange_grid (legs : List (PricedLeg ℝ)) (spot : ℝ) (iv : Bool) :
    stampPnlChange ((shockGrid iv).map (plainRow r b legs spot)) =
      (shockGrid iv).map (tableRow r b legs spot) := by
  unfold stampPnlChange
  cases h : ((shockGrid iv).map (plainRow r b legs spot)).find?
      fun s => s.spotShock = 0 ∧ s.ivShock = 0 with
  | none =>
    have hzero := List.find?_eq_none.1 h _ (List.mem_map_of_mem (zero_mem_shockGrid iv))
    simp [plainRow, stressRow] at hzero
  | some baseline =>
    have hbase : baseline = plainRow r b legs spot (0, 0) := by
      obtain ⟨shocks, -, rfl⟩ := List.mem_map.1 (List.mem_of_find?_eq_some h)
      have hfound := List.find?_some h
      have hzero : shocks.1 = 0 ∧ shocks.2 = 0 := of_decide_eq_true hfound
      rw [show shocks = (0, 0) from Prod.ext hzero.1 hzero.2]
    dsimp only
    rw [List.map_map, hbase]
    refine List.map_congr_left fun shocks _ => ?_
    have hexact : places 2 ((plainRow r b legs spot shocks).totalPnl -
        (plainRow r b legs spot (0, 0)).totalPnl) =
          places 2 (totalPnl r b legs spot shocks) - places 2 (totalPnl r b legs spot (0, 0)) :=
      ((isPlaces_places 2 _).sub (isPlaces_places 2 _)).places_eq
    rw [Function.comp_apply, hexact]
    rfl

/-- The table of a book with a spot. -/
theorem stressMatrix_ok (hb : b.spot = some spot) (hspot : 0 < spot) :
    ∃ legs, b.optPositions.mapM (priceLeg realMath today r b spot) = .ok legs ∧
      legs.map PricedLeg.leg = b.optPositions ∧ (∀ l ∈ legs, l.Sound) ∧
      stressMatrix realMath today r b = .ok (some
        ⟨ivAvailable legs, (shockGrid (ivAvailable legs)).map (tableRow r b legs spot)⟩) := by
  obtain ⟨legs, hpriced, hleg, hsound⟩ := priceLegs_ok today r b spot
  refine ⟨legs, hpriced, hleg, hsound, ?_⟩
  rw [stressMatrix, hb]
  dsimp only
  rw [if_neg hspot.not_ge, hpriced]
  dsimp only [bind, Except.bind]
  rw [mapM_ok fun x hx => shockRows_ok r b hsound hspot (shock_pos hx)]
  dsimp only [pure, Except.pure]
  rw [← List.flatMap_def, ← stampPnlChange_grid, shockGrid, List.map_flatMap]
  simp only [List.map_map]
  rfl

/-! ## Delta -/

/-- The slope of what a leg pays at its expiry. -/
def intrinsicSlope (spot : ℝ) (p : RiskPosition) : ℝ :=
  match p.right with
  | .C => if p.strike < spot then 1 else 0
  | .P => if spot < p.strike then -1 else 0

/-- What a leg adds to the slope of the unshocked P&L. -/
def PricedLeg.slope (r : ℝ) (l : PricedLeg ℝ) (spot : ℝ) : ℝ :=
  match l.usableIv with
  | some iv =>
      closedDelta spot l.leg.strike l.years r iv (rightText l.leg.right) * l.leg.qty * 100
  | none => intrinsicSlope spot l.leg * l.leg.qty * 100

/-- What a leg adds to the reported delta; none for a degraded one. -/
def PricedLeg.reportedDelta (r : ℝ) (l : PricedLeg ℝ) (spot : ℝ) : Option ℝ :=
  l.usableIv.map fun iv =>
    closedDelta spot l.leg.strike l.years r iv (rightText l.leg.right) * l.leg.qty * 100

theorem legDelta_ok {l : PricedLeg ℝ} (hl : l.Sound) (hspot : 0 < spot) :
    legDelta realMath r spot l = .ok (l.reportedDelta r spot) := by
  unfold legDelta PricedLeg.reportedDelta
  cases h : l.usableIv with
  | none => rfl
  | some iv =>
    obtain ⟨hiv, hyears, hstrike⟩ := hl iv (usableIv_eq_some.1 h).1
    dsimp only
    rw [erfDelta_of_pos hspot hstrike hyears hiv]
    rfl

/-- The legs without a volatility. -/
def degradedLegs (legs : List (PricedLeg ℝ)) : List (PricedLeg ℝ) :=
  legs.filter fun l => l.usableIv.isNone

/-- The slopes are the reported deltas and those of the degraded legs. -/
theorem sum_slope (legs : List (PricedLeg ℝ)) :
    (legs.map fun l => l.slope r spot).sum =
      (legs.map fun l => l.reportedDelta r spot).reduceOption.sum +
        ((degradedLegs legs).map fun l => intrinsicSlope spot l.leg * l.leg.qty * 100).sum := by
  unfold degradedLegs
  induction legs with
  | nil => simp
  | cons l legs ih =>
    rw [List.map_cons, List.map_cons, List.sum_cons, ih, List.filter_cons]
    unfold PricedLeg.slope PricedLeg.reportedDelta
    cases h : l.usableIv with
    | none =>
      simp only [Option.map_none, Option.isNone_none, if_true, List.reduceOption_cons_of_none,
        List.map_cons, List.sum_cons]
      ring
    | some iv =>
      simp only [Option.map_some, Option.isNone_some, Bool.false_eq_true, if_false,
        List.reduceOption_cons_of_some, List.sum_cons]
      ring

theorem hasDerivAt_above {k : ℝ} (h : k ≠ spot) :
    HasDerivAt (fun s => max (s - k) 0) (if k < spot then 1 else 0) spot := by
  rcases lt_or_gt_of_ne h with hlt | hgt
  · rw [if_pos hlt]
    refine ((hasDerivAt_id spot).sub_const k).congr_of_eventuallyEq ?_
    filter_upwards [lt_mem_nhds hlt] with s hs
    exact max_eq_left (sub_nonneg.2 hs.le)
  · rw [if_neg hgt.not_gt]
    refine (hasDerivAt_const spot 0).congr_of_eventuallyEq ?_
    filter_upwards [gt_mem_nhds hgt] with s hs
    exact max_eq_right (sub_nonpos.2 hs.le)

theorem hasDerivAt_below {k : ℝ} (h : k ≠ spot) :
    HasDerivAt (fun s => max (k - s) 0) (if spot < k then -1 else 0) spot := by
  rcases lt_or_gt_of_ne h with hlt | hgt
  · rw [if_neg hlt.not_gt]
    refine (hasDerivAt_const spot 0).congr_of_eventuallyEq ?_
    filter_upwards [lt_mem_nhds hlt] with s hs
    exact max_eq_right (sub_nonpos.2 hs.le)
  · rw [if_pos hgt]
    refine ((hasDerivAt_id spot).const_sub k).congr_of_eventuallyEq ?_
    filter_upwards [gt_mem_nhds hgt] with s hs
    exact max_eq_left (sub_nonneg.2 hs.le)

theorem hasDerivAt_intrinsicValue {p : RiskPosition} (h : (p.strike : ℝ) ≠ spot) :
    HasDerivAt (fun s => intrinsicValue s p) (intrinsicSlope spot p) spot := by
  unfold intrinsicValue intrinsicSlope intrinsic
  cases p.right with
  | C => exact hasDerivAt_above h
  | P => exact hasDerivAt_below h

theorem hasDerivAt_closedValue {l : PricedLeg ℝ} (hl : l.Sound) (hspot : 0 < spot)
    (hvol : ∀ v ∈ l.iv, 1 / 100 ≤ v) (hstrike : l.usableIv = none → (l.leg.strike : ℝ) ≠ spot) :
    HasDerivAt (fun s => legPnl l.leg (l.closedValue r s 0)) (l.slope r spot) spot := by
  unfold PricedLeg.closedValue PricedLeg.slope
  simp only [legPnl_eq]
  cases h : l.usableIv with
  | none =>
    exact (((hasDerivAt_intrinsicValue (hstrike h)).sub_const _).mul_const _).mul_const _
  | some iv =>
    obtain ⟨hiv, hyears, hpos⟩ := hl iv (usableIv_eq_some.1 h).1
    have hsame : shockedVol iv 0 = iv := by
      rw [shockedVol, add_zero, max_eq_left (hvol iv (usableIv_eq_some.1 h).1)]
    dsimp only
    rw [hsame]
    exact (((hasDerivAt_closedPrice_spot hspot hpos hyears hiv _).sub_const _).mul_const
      _).mul_const _

theorem hasDerivAt_bookPnl {legs : List (PricedLeg ℝ)} (hlegs : ∀ l ∈ legs, l.Sound)
    (hspot : 0 < spot) (hvol : ∀ l ∈ legs, ∀ v ∈ l.iv, 1 / 100 ≤ v)
    (hstrike : ∀ l ∈ degradedLegs legs, (l.leg.strike : ℝ) ≠ spot) :
    HasDerivAt (fun s => bookPnl r legs s 0) (legs.map fun l => l.slope r spot).sum spot := by
  unfold bookPnl
  induction legs with
  | nil => exact hasDerivAt_const spot 0
  | cons l legs ih =>
    simp only [List.map_cons, List.sum_cons]
    have hhead : l.usableIv = none → (l.leg.strike : ℝ) ≠ spot := fun h =>
      hstrike l (List.mem_filter.2 ⟨List.mem_cons_self, by rw [h]; rfl⟩)
    refine (hasDerivAt_closedValue r (hlegs l List.mem_cons_self) hspot
      (hvol l List.mem_cons_self) hhead).add (ih ?_ ?_ ?_)
    · exact fun l' h => hlegs l' (List.mem_cons_of_mem _ h)
    · exact fun l' h => hvol l' (List.mem_cons_of_mem _ h)
    · exact fun l' h => hstrike l' (List.mem_filter.2
        ⟨List.mem_cons_of_mem _ (List.mem_filter.1 h).1, (List.mem_filter.1 h).2⟩)

theorem hasDerivAt_stockPnl :
    HasDerivAt (stockPnl b) (if b.stockAvgCost.isNone then 0 else (b.stockQty : ℝ)) spot := by
  unfold stockPnl
  cases b.stockAvgCost with
  | none =>
    simp only [ite_self]
    exact hasDerivAt_const spot 0
  | some cost =>
    by_cases hqty : b.stockQty = 0
    · simp only [hqty, if_true, Option.isNone_some, Bool.false_eq_true, if_false, Int.cast_zero]
      exact hasDerivAt_const spot 0
    · simp only [hqty, if_false, Option.isNone_some, Bool.false_eq_true]
      simpa using ((hasDerivAt_id spot).sub_const (cost : ℝ)).mul_const (b.stockQty : ℝ)

/-- What the delta leaves out of the slope: the degraded legs.  And it counts the shares of a stock
of unknown cost, which the table takes to make nothing. -/
def leftOut (legs : List (PricedLeg ℝ)) (spot : ℝ) : ℝ :=
  ((degradedLegs legs).map fun l => intrinsicSlope spot l.leg * l.leg.qty * 100).sum -
    if b.stockAvgCost.isNone then (b.stockQty : ℝ) else 0

theorem computeGreeks_ok (hb : b.spot = some spot) (hspot : 0 < spot)
    {legs : List (PricedLeg ℝ)}
    (hpriced : b.optPositions.mapM (priceLeg realMath today r b spot) = .ok legs)
    (hlegs : ∀ l ∈ legs, l.Sound) :
    let delta := b.stockQty + (legs.map fun l => l.reportedDelta r spot).reduceOption.sum
    ∃ perLeg, computeGreeksForGroup realMath today r b = .ok (.priced (places 4 delta)
      (places 2 (delta * spot)) (degradedLegs legs).length perLeg) := by
  have hcount : (legs.map fun l => l.reportedDelta r spot).countP Option.isNone =
      (degradedLegs legs).length := by
    rw [List.countP_map, List.countP_eq_length_filter, degradedLegs]
    refine congrArg List.length (List.filter_congr fun l _ => ?_)
    rw [Function.comp_apply, PricedLeg.reportedDelta, Option.isNone_map]
  rw [← hcount, computeGreeksForGroup, hb]
  dsimp only
  rw [if_neg hspot.not_ge, hpriced]
  dsimp only [bind, Except.bind]
  rw [mapM_ok fun l hl => legDelta_ok r (hlegs l hl) hspot]
  exact ⟨_, rfl⟩

/-- **The reported delta is the slope of the P&L that the table shocks.**  The rows without a
volatility shock are the values of one function of the spot, which the code computes at every
price; its slope at the spot is the delta, but for what the delta leaves out, where no leg's
volatility is below the floor of the shocks and no degraded leg is at its strike. -/
theorem delta_isSlope (hb : b.spot = some spot) (hspot : 0 < spot) :
    ∃ legs, b.optPositions.mapM (priceLeg realMath today r b spot) = .ok legs ∧
    ∃ pnl : ℝ → ℝ, (∀ s, 0 < s → repricedPnl realMath r legs s 0 = .ok (pnl s)) ∧
    (∃ table, stressMatrix realMath today r b = .ok (some table) ∧
      ∀ row ∈ table.scenarios, row.ivShock = 0 → row.totalPnl =
        places 2 (pnl (spot * (1 + row.spotShock)) + stockPnl b (spot * (1 + row.spotShock)))) ∧
    ∃ delta perLeg, computeGreeksForGroup realMath today r b = .ok (.priced (places 4 delta)
        (places 2 (delta * spot)) (degradedLegs legs).length perLeg) ∧
      ((∀ l ∈ legs, ∀ v ∈ l.iv, 1 / 100 ≤ v) →
        (∀ l ∈ degradedLegs legs, (l.leg.strike : ℝ) ≠ spot) →
        HasDerivAt (fun s => pnl s + stockPnl b s) (delta + leftOut b legs spot) spot) := by
  obtain ⟨legs, hpriced, -, hsound, htable⟩ := stressMatrix_ok today r b hb hspot
  obtain ⟨perLeg, hgreeks⟩ := computeGreeks_ok today r b hb hspot hpriced hsound
  refine ⟨legs, hpriced, fun s => bookPnl r legs s 0, fun s hs => repricedPnl_ok r hsound hs 0,
    ⟨_, htable, ?_⟩, _, perLeg, hgreeks, fun hvol hstrike => ?_⟩
  · intro row hrow hiv
    obtain ⟨⟨spotShock, ivShock⟩, -, rfl⟩ := List.mem_map.1 hrow
    obtain rfl : ivShock = 0 := hiv
    rfl
  · refine ((hasDerivAt_bookPnl r hsound hspot hvol hstrike).add
      (hasDerivAt_stockPnl b)).congr_deriv ?_
    rw [sum_slope, leftOut]
    split <;> ring

/-- The day of the sample book. -/
def marketDay : Date := (Date.ofYmd 2026 6 19).getD Date.epoch

/-- The day its options end. -/
def expiryDay : Date := (Date.ofYmd 2026 12 18).getD Date.epoch

/-- A short put that its mid prices, and a long call without a mid, over two hundred shares. -/
def coveredBook : Book ℝ where
  optPositions := [⟨90, .P, -1, 3, none⟩, ⟨120, .C, 2, 1, none⟩]
  stockQty := 200
  stockAvgCost := some 80
  spot := some 100
  farthestExpiry := some expiryDay
  optMidPrices := [((90, .P, none), 4)]

theorem yearsTo_expiryDay : (yearsTo marketDay (some expiryDay) : ℝ) = 182 / 365 := by
  have hdays : max ((expiryDay.toOrdinal : ℤ) - marketDay.toOrdinal) 0 = 182 := by decide +kernel
  rw [yearsTo, hdays]
  norm_num

/-- Below the shocks' floor the put would be worth less than its mid. -/
theorem le_vol_coveredBook {v : ℝ}
    (h : Solves realMath 4 100 ((90 : ℚ) : ℝ) (yearsTo marketDay (some expiryDay))
      ratePositionsModel "P" "positions_model" (1 / 10 ^ 6) v) : 1 / 100 ≤ v := by
  have hv : 0 < v := lt_of_lt_of_le (by norm_num) h.range.1
  obtain ⟨p, hp, hclose⟩ : Prices realMath 4 100 ((90 : ℚ) : ℝ)
      (yearsTo marketDay (some expiryDay)) ratePositionsModel "P" false
      (· < max (1 / 10 ^ 6) (1 / 20)) v := by
    simpa using h.prices
  have hstrike : ((90 : ℚ) : ℝ) = 90 := by norm_num
  rw [yearsTo_expiryDay, hstrike, price_of_pos (by norm_num) (by norm_num) (by norm_num) hv,
    Except.ok.injEq, closedPrice, if_neg (by decide), LognormalOption.put_eq] at hp
  have hrate : (0 : ℝ) < ratePositionsModel := by norm_num [ratePositionsModel]
  have hcall := LognormalOption.call_le (S := 100) (K := 90) (T := 182 / 365)
    (r := ratePositionsModel) (by norm_num) (by norm_num) (by norm_num) hv
  have hforward : LognormalOption.forwardStrike 90 (182 / 365) ratePositionsModel ≤ 90 := by
    have hexp : Real.exp (-ratePositionsModel * (182 / 365)) ≤ 1 :=
      Real.exp_le_one_iff.2 (by linarith)
    rw [LognormalOption.forwardStrike]
    linarith
  rw [max_eq_left (by linarith)] at hcall
  have hroot : √(182 / 365 : ℝ) ≤ 1 := Real.sqrt_le_one.2 (by norm_num)
  have hslope : 100 * Normal.pdf 0 * √(182 / 365) ≤ 40 := by
    have hpdf := Normal.pdf_zero_le
    have hpos := Normal.pdf_pos 0
    nlinarith [Real.sqrt_nonneg (182 / 365 : ℝ)]
  by_contra hlow
  have hsmall : 100 * Normal.pdf 0 * √(182 / 365) * v ≤ 40 * v :=
    mul_le_mul_of_nonneg_right hslope hv.le
  have hfar : |p - 4| < 1 / 20 := hclose.trans_eq (max_eq_right (by norm_num))
  have habs := (abs_lt.1 hfar).1
  linarith

section CoveredBook

variable {legs : List (PricedLeg ℝ)}
  (hpriced : coveredBook.optPositions.mapM
    (priceLeg realMath marketDay ratePositionsModel coveredBook 100) = .ok legs)

include hpriced

theorem priced_coveredBook {l : PricedLeg ℝ} (hl : l ∈ legs) :
    ∃ p ∈ coveredBook.optPositions,
      priceLeg realMath marketDay ratePositionsModel coveredBook 100 p = .ok l :=
  exists_left_of_forall₂ (mapM_ok_iff.1 hpriced) l hl

/-- The put's volatility is not below the shocks' floor: there the put would be worth less than its
mid. -/
theorem iv_coveredBook : ∀ l ∈ legs, ∀ v ∈ l.iv, 1 / 100 ≤ v := by
  intro l hl v hv
  obtain ⟨p, hp, hleg⟩ := priced_coveredBook hpriced hl
  obtain ⟨mid, hmid, hsolves⟩ := solves_of_priceLeg marketDay ratePositionsModel coveredBook hleg hv
  simp only [coveredBook, List.mem_cons, List.not_mem_nil, or_false] at hp
  rcases hp with rfl | rfl
  · obtain rfl : mid = 4 := by simpa [coveredBook, eq_comm] using hmid
    exact le_vol_coveredBook hsolves
  · have hnone : coveredBook.optMidPrices.lookup (120, .C, none) = none := rfl
    rw [hnone] at hmid
    cases hmid

theorem strike_coveredBook : ∀ l ∈ degradedLegs legs, (l.leg.strike : ℝ) ≠ 100 := by
  intro l hl
  obtain ⟨p, hp, hleg⟩ := priced_coveredBook hpriced (List.mem_of_mem_filter hl)
  obtain ⟨l', hl', heq, -⟩ := priceLeg_ok marketDay ratePositionsModel coveredBook 100 p
  rw [hleg] at hl'
  obtain rfl := Except.ok.inj hl'
  rw [heq]
  simp only [coveredBook, List.mem_cons, List.not_mem_nil, or_false] at hp
  rcases hp with rfl | rfl
  · norm_num
  · norm_num

end CoveredBook

theorem delta_isSlope_coveredBook :
    ∃ legs, coveredBook.optPositions.mapM
        (priceLeg realMath marketDay ratePositionsModel coveredBook 100) = .ok legs ∧
    ∃ pnl : ℝ → ℝ, (∀ s, 0 < s → repricedPnl realMath ratePositionsModel legs s 0 = .ok (pnl s)) ∧
    (∃ table,
      stressMatrix realMath marketDay ratePositionsModel coveredBook = .ok (some table) ∧
      ∀ row ∈ table.scenarios, row.ivShock = 0 → row.totalPnl = places 2
        (pnl (100 * (1 + row.spotShock)) + stockPnl coveredBook (100 * (1 + row.spotShock)))) ∧
    ∃ delta perLeg, computeGreeksForGroup realMath marketDay ratePositionsModel coveredBook =
        .ok (.priced (places 4 delta) (places 2 (delta * 100)) (degradedLegs legs).length perLeg) ∧
      HasDerivAt (fun s => pnl s + stockPnl coveredBook s)
        (delta + leftOut coveredBook legs 100) 100 := by
  obtain ⟨legs, hpriced, pnl, hpnl, htable, delta, perLeg, hgreeks, hslope⟩ :=
    delta_isSlope marketDay ratePositionsModel coveredBook rfl (by norm_num)
  exact ⟨legs, hpriced, pnl, hpnl, htable, delta, perLeg, hgreeks,
    hslope (iv_coveredBook hpriced) (strike_coveredBook hpriced)⟩

end Pricing

end
