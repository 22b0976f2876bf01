import BifrostTrade.Pricing.StressLaw

/-!
# The order of the stress rows

An option is worth more where its volatility is higher, a call where the spot is higher and a put
where it is lower.  So the rows of a book that is long, or short, follow the volatility shocks, and
those of a book that gains, or loses, with the spot follow the spot shocks (`stress_ordered`).
-/

noncomputable section

open Py Rounding
open Portfolio (RiskPosition Right)

namespace Pricing

/-! ## Values -/

section Value

variable {K T r v : ℝ} (hK : 0 < K) (hT : 0 < T) (hv : 0 < v) {right : String}

include hK hT hv

theorem differentiableOn_closedPrice_spot :
    DifferentiableOn ℝ (fun s => closedPrice s K T r v right) (Set.Ioi 0) := fun _ hs =>
  (hasDerivAt_closedPrice_spot hs hK hT hv right).differentiableAt.differentiableWithinAt

theorem monotoneOn_call_spot (h : isCall (some right) = true) :
    MonotoneOn (fun s => closedPrice s K T r v right) (Set.Ioi 0) := by
  have hdiff : DifferentiableOn ℝ (fun s => closedPrice s K T r v right) (Set.Ioi 0) :=
    differentiableOn_closedPrice_spot hK hT hv
  refine monotoneOn_of_deriv_nonneg (convex_Ioi 0) hdiff.continuousOn
    (hdiff.mono interior_subset) fun s hs => ?_
  rw [(hasDerivAt_closedPrice_spot (interior_subset hs) hK hT hv right).deriv, closedDelta,
    if_pos h]
  exact (Normal.cdf_pos _).le

theorem antitoneOn_put_spot (h : ¬ isCall (some right) = true) :
    AntitoneOn (fun s => closedPrice s K T r v right) (Set.Ioi 0) := by
  have hdiff : DifferentiableOn ℝ (fun s => closedPrice s K T r v right) (Set.Ioi 0) :=
    differentiableOn_closedPrice_spot hK hT hv
  refine antitoneOn_of_deriv_nonpos (convex_Ioi 0) hdiff.continuousOn
    (hdiff.mono interior_subset) fun s hs => ?_
  rw [(hasDerivAt_closedPrice_spot (interior_subset hs) hK hT hv right).deriv, closedDelta,
    if_neg h, sub_nonpos]
  exact (Normal.cdf_lt_one _).le

end Value

variable {r : ℝ} {l : PricedLeg ℝ} {s t ivShock ivShock' : ℝ}

theorem closedValue_le_of_ivShock (hl : l.Sound) (hs : 0 < s) (h : ivShock ≤ ivShock') :
    l.closedValue r s ivShock ≤ l.closedValue r s ivShock' := by
  unfold PricedLeg.closedValue
  cases hiv : l.usableIv with
  | none => exact le_rfl
  | some iv =>
    obtain ⟨-, hyears, hstrike⟩ := hl iv (usableIv_eq_some.1 hiv).1
    exact (strictMonoOn_closedPrice hs hstrike hyears _).monotoneOn (shockedVol_pos _ _)
      (shockedVol_pos _ _) (max_le_max_right _ (by gcongr))

theorem closedValue_call_le (hl : l.Sound) (hright : l.leg.right = .C) (hs : 0 < s) (h : s ≤ t) :
    l.closedValue r s ivShock ≤ l.closedValue r t ivShock := by
  have hcall : isCall (some (rightText l.leg.right)) = true := by rw [hright]; decide
  unfold PricedLeg.closedValue
  cases hiv : l.usableIv with
  | none =>
    simp only [intrinsicValue, intrinsic, if_pos hcall]
    exact max_le_max_right _ (by gcongr)
  | some iv =>
    obtain ⟨-, hyears, hstrike⟩ := hl iv (usableIv_eq_some.1 hiv).1
    exact monotoneOn_call_spot hstrike hyears (shockedVol_pos _ _) hcall hs (hs.trans_le h) h

theorem closedValue_put_le (hl : l.Sound) (hright : l.leg.right = .P) (hs : 0 < s) (h : s ≤ t) :
    l.closedValue r t ivShock ≤ l.closedValue r s ivShock := by
  have hput : ¬ isCall (some (rightText l.leg.right)) = true := by rw [hright]; decide
  unfold PricedLeg.closedValue
  cases hiv : l.usableIv with
  | none =>
    simp only [intrinsicValue, intrinsic, if_neg hput]
    exact max_le_max_right _ (by gcongr)
  | some iv =>
    obtain ⟨-, hyears, hstrike⟩ := hl iv (usableIv_eq_some.1 hiv).1
    exact antitoneOn_put_spot hstrike hyears (shockedVol_pos _ _) hput hs (hs.trans_le h) h

/-! ## Books -/

/-- A leg that gains with the spot: a long call or a short put. -/
def Gains (p : RiskPosition) : Prop :=
  match p.right with
  | .C => 0 ≤ p.qty
  | .P => p.qty ≤ 0

/-- A leg that loses with the spot. -/
def Loses (p : RiskPosition) : Prop :=
  match p.right with
  | .C => p.qty ≤ 0
  | .P => 0 ≤ p.qty

theorem legPnl_le_of_long {p : RiskPosition} {x y : ℝ} (hp : 0 ≤ p.qty) (h : x ≤ y) :
    legPnl p x ≤ legPnl p y := by
  have hqty : (0 : ℝ) ≤ p.qty := by exact_mod_cast hp
  rw [legPnl_eq, legPnl_eq]
  gcongr

theorem legPnl_le_of_short {p : RiskPosition} {x y : ℝ} (hp : p.qty ≤ 0) (h : x ≤ y) :
    legPnl p y ≤ legPnl p x := by
  have hqty : (p.qty : ℝ) ≤ 0 := by exact_mod_cast hp
  rw [legPnl_eq, legPnl_eq]
  exact mul_le_mul_of_nonneg_right
    (mul_le_mul_of_nonpos_right (sub_le_sub_right h _) hqty) (by norm_num)

theorem legPnl_le_of_gains (hl : l.Sound) (hp : Gains l.leg) (hs : 0 < s) (h : s ≤ t) :
    legPnl l.leg (l.closedValue r s ivShock) ≤ legPnl l.leg (l.closedValue r t ivShock) := by
  unfold Gains at hp
  cases hright : l.leg.right with
  | C =>
    rw [hright] at hp
    exact legPnl_le_of_long hp (closedValue_call_le hl hright hs h)
  | P =>
    rw [hright] at hp
    exact legPnl_le_of_short hp (closedValue_put_le hl hright hs h)

theorem legPnl_le_of_loses (hl : l.Sound) (hp : Loses l.leg) (hs : 0 < s) (h : s ≤ t) :
    legPnl l.leg (l.closedValue r t ivShock) ≤ legPnl l.leg (l.closedValue r s ivShock) := by
  unfold Loses at hp
  cases hright : l.leg.right with
  | C =>
    rw [hright] at hp
    exact legPnl_le_of_short hp (closedValue_call_le hl hright hs h)
  | P =>
    rw [hright] at hp
    exact legPnl_le_of_long hp (closedValue_put_le hl hright hs h)

theorem stockPnl_sub (b : Book ℝ) (s t : ℝ) : stockPnl b t - stockPnl b s =
    if b.stockAvgCost.isNone then 0 else (t - s) * b.stockQty := by
  unfold stockPnl
  cases b.stockAvgCost with
  | none => simp
  | some cost =>
    split
    · rename_i hqty
      simp [hqty]
    · simp only [Option.isNone_some, Bool.false_eq_true, if_false]
      ring

theorem stockPnl_le {b : Book ℝ} (hqty : 0 ≤ b.stockQty) (h : s ≤ t) :
    stockPnl b s ≤ stockPnl b t := by
  have hreal : (0 : ℝ) ≤ b.stockQty := by exact_mod_cast hqty
  rw [← sub_nonneg, stockPnl_sub]
  split
  · exact le_rfl
  · exact mul_nonneg (sub_nonneg.2 h) hreal

theorem stockPnl_le_of_short {b : Book ℝ} (hqty : b.stockQty ≤ 0) (h : s ≤ t) :
    stockPnl b t ≤ stockPnl b s := by
  have hreal : (b.stockQty : ℝ) ≤ 0 := by exact_mod_cast hqty
  rw [← sub_nonpos, stockPnl_sub]
  split
  · exact le_rfl
  · exact mul_nonpos_of_nonneg_of_nonpos (sub_nonneg.2 h) hreal

/-! ## Rows -/

theorem bookPnl_le {legs : List (PricedLeg ℝ)} (h : ∀ l ∈ legs,
    legPnl l.leg (l.closedValue r s ivShock) ≤ legPnl l.leg (l.closedValue r t ivShock')) :
    bookPnl r legs s ivShock ≤ bookPnl r legs t ivShock' :=
  List.sum_le_sum h

/-- How the rows of a table stand to each other. -/
structure StressOrdered (b : Book ℝ) (table : StressTable ℝ) : Prop where
  rows : (table.scenarios.map fun x => (x.spotShock, x.ivShock)) =
    shockGrid table.ivStressAvailable
  /-- A change is against the row without shocks. -/
  change : ∃ base ∈ table.scenarios, base.spotShock = 0 ∧ base.ivShock = 0 ∧
    ∀ x ∈ table.scenarios, x.pnlChange = some (x.totalPnl - base.totalPnl)
  long : (∀ p ∈ b.optPositions, 0 ≤ p.qty) → ∀ x ∈ table.scenarios, ∀ y ∈ table.scenarios,
    x.spotShock = y.spotShock → x.ivShock ≤ y.ivShock → x.totalPnl ≤ y.totalPnl
  short : (∀ p ∈ b.optPositions, p.qty ≤ 0) → ∀ x ∈ table.scenarios, ∀ y ∈ table.scenarios,
    x.spotShock = y.spotShock → x.ivShock ≤ y.ivShock → y.totalPnl ≤ x.totalPnl
  gains : (∀ p ∈ b.optPositions, Gains p) → 0 ≤ b.stockQty →
    ∀ x ∈ table.scenarios, ∀ y ∈ table.scenarios,
      x.ivShock = y.ivShock → x.spotShock ≤ y.spotShock → x.totalPnl ≤ y.totalPnl
  loses : (∀ p ∈ b.optPositions, Loses p) → b.stockQty ≤ 0 →
    ∀ x ∈ table.scenarios, ∀ y ∈ table.scenarios,
      x.ivShock = y.ivShock → x.spotShock ≤ y.spotShock → y.totalPnl ≤ x.totalPnl

section Table

variable (today : Date) (r : ℝ) (b : Book ℝ) {spot : ℝ}

/-- What holds of two rows where the P&L follows the shocks. -/
theorem le_of_tableRow {legs : List (PricedLeg ℝ)} {iv : Bool} {x y : StressRow ℝ}
    (hx : x ∈ (shockGrid iv).map (tableRow r b legs spot))
    (hy : y ∈ (shockGrid iv).map (tableRow r b legs spot))
    (h : x.spotShock ∈ spotShocks → y.spotShock ∈ spotShocks →
      totalPnl r b legs spot (x.spotShock, x.ivShock) ≤
        totalPnl r b legs spot (y.spotShock, y.ivShock)) : x.totalPnl ≤ y.totalPnl := by
  obtain ⟨p, hp, rfl⟩ := List.mem_map.1 hx
  obtain ⟨q, hq, rfl⟩ := List.mem_map.1 hy
  exact places_mono 2 (h (mem_shockGrid.1 hp).1 (mem_shockGrid.1 hq).1)

theorem newSpot_pos (hspot : 0 < spot) {spotShock : ℝ} (h : spotShock ∈ spotShocks) :
    0 < spot * (1 + spotShock) := mul_pos hspot (shock_pos h)

theorem newSpot_le (hspot : 0 < spot) {x y : ℝ} (h : x ≤ y) :
    spot * (1 + x) ≤ spot * (1 + y) := by
  gcongr

/-- **The rows follow the shocks.**  For a book with a spot the table has every row of its grid, the
rows of a long book rise with the volatility shock and those of a short book fall, and the rows of a
book that gains with the spot rise with the spot shock and those of one that loses fall. -/
theorem stress_ordered (hb : b.spot = some spot) (hspot : 0 < spot) :
    ∃ table, stressMatrix realMath today r b = .ok (some table) ∧ StressOrdered b table := by
  obtain ⟨legs, -, hleg, hsound, htable⟩ := stressMatrix_ok today r b hb hspot
  have hall : ∀ {P : RiskPosition → Prop}, (∀ p ∈ b.optPositions, P p) → ∀ l ∈ legs, P l.leg :=
    fun h l hl => h _ (hleg ▸ List.mem_map_of_mem hl)
  refine ⟨_, htable, ?_, ⟨_, List.mem_map_of_mem (zero_mem_shockGrid _), rfl, rfl, ?_⟩,
    ?_, ?_, ?_, ?_⟩
  · rw [List.map_map]
    exact List.map_id _
  · intro x hx
    obtain ⟨shocks, -, rfl⟩ := List.mem_map.1 hx
    rfl
  · intro hlong x hx y hy hsame hiv
    refine le_of_tableRow r b hx hy fun hshock _ => ?_
    rw [← hsame]
    exact add_le_add_left (bookPnl_le fun l hl => legPnl_le_of_long (hall hlong l hl)
      (closedValue_le_of_ivShock (hsound l hl) (newSpot_pos hspot hshock) hiv)) _
  · intro hshort x hx y hy hsame hiv
    refine le_of_tableRow r b hy hx fun _ hshock => ?_
    rw [← hsame]
    exact add_le_add_left (bookPnl_le fun l hl => legPnl_le_of_short (hall hshort l hl)
      (closedValue_le_of_ivShock (hsound l hl) (newSpot_pos hspot hshock) hiv)) _
  · intro hgains hqty x hx y hy hsame hshocks
    refine le_of_tableRow r b hx hy fun hshock _ => ?_
    rw [← hsame]
    exact add_le_add (bookPnl_le fun l hl => legPnl_le_of_gains (hsound l hl) (hall hgains l hl)
      (newSpot_pos hspot hshock) (newSpot_le hspot hshocks))
      (stockPnl_le hqty (newSpot_le hspot hshocks))
  · intro hloses hqty x hx y hy hsame hshocks
    refine le_of_tableRow r b hy hx fun _ hshock => ?_
    rw [← hsame]
    exact add_le_add (bookPnl_le fun l hl => legPnl_le_of_loses (hsound l hl) (hall hloses l hl)
      (newSpot_pos hspot hshock) (newSpot_le hspot hshocks))
      (stockPnl_le_of_short hqty (newSpot_le hspot hshocks))

end Table

theorem stress_ordered_coveredBook : ∃ table,
    stressMatrix realMath marketDay ratePositionsModel coveredBook = .ok (some table) ∧
      StressOrdered coveredBook table :=
  stress_ordered _ _ coveredBook rfl (by norm_num)

end Pricing

end
