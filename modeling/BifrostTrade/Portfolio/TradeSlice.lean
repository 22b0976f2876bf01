import BifrostTrade.Portfolio.OptCalendar
import Mathlib.Algebra.BigOperators.Ring.List

/-!
# The slices of a fill

A fill is attributed to one trade, or split over several.  What a trade has of it is its slice:
`slice_execution_for_instance_opt_view` of `portfolio/reader/instance_exec_net_pnl.py`.  The
aggregates of `portfolio/reader/executions.py` weight by `weight_realized_for_trade` instead.
-/

namespace Portfolio

open Py

/-- An item of `fill_splits`; the writer stores finite quantities. -/
structure FillSplit where
  tradeId : ℤ
  quantity : ℚ
  strategyOpportunityId : Option ℤ
  tradeLabel : Option String
  deriving DecidableEq

/-- An execution with its attribution, and the other columns that a slice changes. -/
structure TradeExecution extends Execution where
  contractKey : Option String
  taxes : Option Double
  netCash : Option Double
  tradeId : Option ℤ
  tradeLabel : Option String
  strategyOpportunityId : Option ℤ
  strategyOpportunityName : Option String
  fillSplits : List FillSplit
  deriving DecidableEq

/-- `NET_QTY_EPS`. -/
def netQtyEps : ℚ := 1 / 10 ^ 9

/-- The sizes of the splits together. -/
def splitSize (splits : List FillSplit) : ℚ := (splits.map fun a => |a.quantity|).sum

/-- A figure of the fill, prorated. -/
def prorate (w : ℚ) (x : Option Double) : Option Double :=
  x.map fun v => .fin ((finiteValue v).getD 0 * w)

/-- A text that is there and not blank, stripped. -/
def nonBlank (s : Option String) : Option String :=
  (s.map strip).filter fun t => t ≠ ""

/-- The slice of a split fill, from the split of the trade and its share. -/
def sliceOfSplit (ex : TradeExecution) (mine : FillSplit) (w : ℚ) : TradeExecution :=
  let resolved := mine.strategyOpportunityId.or ex.strategyOpportunityId
  { ex with
    quantity := some (.fin mine.quantity)
    realizedPnl := prorate w ex.realizedPnl
    commission := prorate w ex.commission
    taxes := prorate w ex.taxes
    netCash := prorate w ex.netCash
    strategyOpportunityId := resolved
    strategyOpportunityName :=
      if resolved.isSome ∧ ex.strategyOpportunityId.isSome then
        -- the name of the fill's opportunity stays also under another one
        if resolved = ex.strategyOpportunityId then
          (nonBlank ex.strategyOpportunityName).or ex.strategyOpportunityName
        else ex.strategyOpportunityName
      else none
    tradeId := some mine.tradeId
    tradeLabel := (nonBlank mine.tradeLabel).or ex.tradeLabel
    fillSplits := [] }

/-- The split of a trade. -/
def splitOf (splits : List FillSplit) (sid : ℤ) : Option FillSplit :=
  splits.find? fun a => a.tradeId = sid

/-- `slice_execution_for_instance_opt_view`. -/
def sliceExecutionForInstanceOptView (ex : TradeExecution) (sid : ℤ) : Option TradeExecution :=
  if ex.fillSplits ≠ [] then
    let denom := splitSize ex.fillSplits
    if denom ≤ netQtyEps then none
    else (splitOf ex.fillSplits sid).map fun mine => sliceOfSplit ex mine (|mine.quantity| / denom)
  else if ex.tradeId = some sid then some ex
  else none

/-- `weight_realized_for_trade`. -/
def weightRealizedForTrade (ex : TradeExecution) (sid : ℤ) : ℚ :=
  if ex.fillSplits ≠ [] then
    let denom := splitSize ex.fillSplits
    if denom ≤ 0 then 0
    else ((splitOf ex.fillSplits sid).map fun mine => |mine.quantity| / denom).getD 0
  else if ex.tradeId = some sid then 1
  else 0

/-! ## What a slice is -/

theorem finiteOrZero_prorate (w : ℚ) (x : Option Double) :
    finiteOrZero (prorate w x) = finiteOrZero x * w := by
  cases x with
  | none => simp [prorate, finiteOrZero]
  | some v => simp [prorate, finiteOrZero, finiteValue]

theorem slice_of_whole {ex : TradeExecution} {sid : ℤ} (h : ex.fillSplits = [])
    (htrade : ex.tradeId = some sid) : sliceExecutionForInstanceOptView ex sid = some ex := by
  rw [sliceExecutionForInstanceOptView, if_neg (not_not_intro h), if_pos htrade]

/-- Splits of different trades are found by their trade. -/
theorem splitOf_of_mem {splits : List FillSplit} (hnd : (splits.map FillSplit.tradeId).Nodup)
    {a : FillSplit} (ha : a ∈ splits) : splitOf splits a.tradeId = some a := by
  unfold splitOf
  cases hfind : splits.find? fun b => b.tradeId = a.tradeId with
  | none => exact absurd (List.find?_eq_none.1 hfind a ha) (by simp)
  | some b =>
    have hb : b.tradeId = a.tradeId := by simpa using List.find?_some hfind
    rw [List.inj_on_of_nodup_map hnd (List.mem_of_find?_eq_some hfind) ha hb]

theorem slice_of_split {ex : TradeExecution} (hnd : (ex.fillSplits.map FillSplit.tradeId).Nodup)
    (hsize : netQtyEps < splitSize ex.fillSplits) {a : FillSplit} (ha : a ∈ ex.fillSplits) :
    sliceExecutionForInstanceOptView ex a.tradeId =
      some (sliceOfSplit ex a (|a.quantity| / splitSize ex.fillSplits)) := by
  rw [sliceExecutionForInstanceOptView, if_pos (List.ne_nil_of_mem ha)]
  dsimp only
  rw [if_neg (not_le.2 hsize), splitOf_of_mem hnd ha, Option.map_some]

theorem slice_of_noise {ex : TradeExecution} (hsplit : ex.fillSplits ≠ [])
    (hsize : splitSize ex.fillSplits ≤ netQtyEps) (sid : ℤ) :
    sliceExecutionForInstanceOptView ex sid = none := by
  rw [sliceExecutionForInstanceOptView, if_pos hsplit]
  exact if_pos hsize

theorem netQtyEps_pos : 0 < netQtyEps := by norm_num [netQtyEps]

/-- A slice carries the weight that the aggregates give its trade. -/
theorem finiteOrZero_commission_slice {ex s : TradeExecution} {sid : ℤ}
    (h : sliceExecutionForInstanceOptView ex sid = some s) :
    finiteOrZero s.commission = finiteOrZero ex.commission * weightRealizedForTrade ex sid ∧
      finiteOrZero s.realizedPnl =
        finiteOrZero ex.realizedPnl * weightRealizedForTrade ex sid := by
  unfold sliceExecutionForInstanceOptView at h
  unfold weightRealizedForTrade
  dsimp only at h ⊢
  split_ifs at h ⊢ with hsplit htiny htiny hzero htrade
  · have hpos := netQtyEps_pos
    linarith
  · cases hmine : splitOf ex.fillSplits sid with
    | none =>
      rw [hmine] at h
      cases h
    | some mine =>
      rw [hmine] at h
      obtain rfl := Option.some.inj h
      exact ⟨finiteOrZero_prorate _ _, finiteOrZero_prorate _ _⟩
  · obtain rfl := Option.some.inj h
    simp

/-- The shares of the splits add up to the whole. -/
theorem sum_shares {splits : List FillSplit} (hne : splitSize splits ≠ 0) (c : ℚ) :
    (splits.map fun a => c * (|a.quantity| / splitSize splits)).sum = c := by
  have hshare : (fun a : FillSplit => c * (|a.quantity| / splitSize splits)) =
      fun a => c / splitSize splits * |a.quantity| := by
    funext a
    ring
  rw [hshare, List.sum_map_mul_left]
  exact div_mul_cancel₀ c hne

end Portfolio
