import BifrostTrade.Lib.Rollup
import BifrostTrade.Portfolio.TradeCalendar

/-!
# Realised performance

The realised part of `get_performance_stats` of `portfolio/reader/executions.py`, before and after
the rounding of its output, and the summary `get_performance_instance_summary_only` of one trade.
Every aggregate walks the executions again; what each adds up are the same figures of an execution,
weighted by its share of the trade that is asked for.  The arithmetic is exact up to the rounding of
the output: the floats that the two functions add in different orders are rationals here.
-/

namespace Portfolio

open Py

/-! ## Totals -/

/-- The figures of an aggregate. -/
@[ext]
structure PnlTotals where
  totalPnl : ℚ
  commission : ℚ
  netPnl : ℚ
  fillCount : ℕ
  deriving DecidableEq, Repr

namespace PnlTotals

instance : Zero PnlTotals := ⟨⟨0, 0, 0, 0⟩⟩

instance : Add PnlTotals :=
  ⟨fun a b => ⟨a.totalPnl + b.totalPnl, a.commission + b.commission, a.netPnl + b.netPnl,
    a.fillCount + b.fillCount⟩⟩

@[simp] theorem zero_totalPnl : (0 : PnlTotals).totalPnl = 0 := rfl
@[simp] theorem zero_commission : (0 : PnlTotals).commission = 0 := rfl
@[simp] theorem zero_netPnl : (0 : PnlTotals).netPnl = 0 := rfl
@[simp] theorem zero_fillCount : (0 : PnlTotals).fillCount = 0 := rfl

@[simp] theorem add_totalPnl (a b : PnlTotals) : (a + b).totalPnl = a.totalPnl + b.totalPnl := rfl
@[simp] theorem add_commission (a b : PnlTotals) :
    (a + b).commission = a.commission + b.commission := rfl
@[simp] theorem add_netPnl (a b : PnlTotals) : (a + b).netPnl = a.netPnl + b.netPnl := rfl
@[simp] theorem add_fillCount (a b : PnlTotals) :
    (a + b).fillCount = a.fillCount + b.fillCount := rfl

instance : AddCommMonoid PnlTotals where
  add_assoc a b c := by ext <;> simp [add_assoc]
  zero_add a := by ext <;> simp
  add_zero a := by ext <;> simp
  add_comm a b := by ext <;> simp [add_comm]
  nsmul := nsmulRec

/-- The figures of a row, `round(.., 2)`. -/
def rounded (v : PnlTotals) : PnlTotals :=
  ⟨roundTo 2 v.totalPnl, roundTo 2 v.commission, roundTo 2 v.netPnl, v.fillCount⟩

/-- One fill with its realised P&L and commission. -/
def ofFill (rp comm : ℚ) : PnlTotals := ⟨rp, comm, rp - comm, 1⟩

end PnlTotals

/-- What an execution adds to an aggregate: its figures with the weight of the trade. -/
def execTotals (f : ReadFilter) (e : TradeExecution) : PnlTotals :=
  .ofFill (finiteOrZero e.realizedPnl * perfInstWeight f e)
    (finiteOrZero e.commission * perfInstWeight f e)

/-! ## Rows by trade and by opportunity -/

/-- The splits of an execution that count: those of the trade that is asked for. -/
def workAllocs (onlyTradeId : Option ℤ) (e : TradeExecution) : List FillSplit :=
  match onlyTradeId with
  | none => e.fillSplits
  -- `int(a.get("trade_id") or -1)`
  | some t => e.fillSplits.filter fun a => (if a.tradeId = 0 then -1 else a.tradeId) = t

/-- What a split adds. -/
def splitTotals (e : TradeExecution) (a : FillSplit) : PnlTotals :=
  .ofFill (finiteOrZero e.realizedPnl * (|a.quantity| / splitSize e.fillSplits))
    (finiteOrZero e.commission * (|a.quantity| / splitSize e.fillSplits))

/-- What a fill adds that is not split. -/
def wholeTotals (e : TradeExecution) : PnlTotals :=
  .ofFill (finiteOrZero e.realizedPnl) (finiteOrZero e.commission)

/-- A fill that is not split is of no other trade than the one that is asked for. -/
def WholeCounts (onlyTradeId : Option ℤ) (e : TradeExecution) : Prop :=
  ∀ t ∈ onlyTradeId, e.tradeId = some t

instance (onlyTradeId : Option ℤ) (e : TradeExecution) : Decidable (WholeCounts onlyTradeId e) :=
  inferInstanceAs (Decidable (∀ t ∈ onlyTradeId, _))

/-- The part of `_add_realized_splits_to_opp_and_inst` that adds to `by_inst`. -/
def instParts (onlyTradeId : Option ℤ) (e : TradeExecution) : List (ℤ × PnlTotals) :=
  if e.fillSplits ≠ [] then
    if splitSize e.fillSplits ≤ 0 then []
    else (workAllocs onlyTradeId e).map fun a => (a.tradeId, splitTotals e a)
  else if WholeCounts onlyTradeId e then
    e.tradeId.toList.map fun t => (t, wholeTotals e)
  else []

/-- What splits add to `by_opp`: an opportunity counts a fill once, at its first split. -/
def oppSplitParts (e : TradeExecution) : List ℤ → List FillSplit → List (ℤ × PnlTotals)
  | _, [] => []
  | bumped, a :: rest =>
      match a.strategyOpportunityId with
      | none => oppSplitParts e bumped rest
      | some so =>
          (so, { splitTotals e a with fillCount := if so ∈ bumped then 0 else 1 }) ::
            oppSplitParts e (so :: bumped) rest

/-- The part of `_add_realized_splits_to_opp_and_inst` that adds to `by_opp`. -/
def oppParts (onlyTradeId : Option ℤ) (e : TradeExecution) : List (ℤ × PnlTotals) :=
  if e.fillSplits ≠ [] then
    if splitSize e.fillSplits ≤ 0 then []
    else oppSplitParts e [] (workAllocs onlyTradeId e)
  else if WholeCounts onlyTradeId e then
    e.strategyOpportunityId.toList.map fun so => (so, wholeTotals e)
  else []

/-! ## The calendar -/

/-- A row of `calendar`. -/
structure PeriodRow where
  periodStartTs : ℚ
  periodLabel : String
  totals : PnlTotals
  winCount : ℕ
  lossCount : ℕ
  winRate : Option ℚ
  deriving DecidableEq, Repr

/-- The row of the fills of one period, from what each adds. -/
def periodRow (pk : PeriodKey) (fills : List PnlTotals) : PeriodRow :=
  let wins := fills.countP fun x => 0 < x.totalPnl
  let losses := fills.countP fun x => x.totalPnl < 0
  { periodStartTs := pk.startTs
    periodLabel := pk.label
    totals := fills.sum
    winCount := wins
    lossCount := losses
    winRate := winRate wins losses }

/-- `calendar`: one row for each period with fills, by the UTC day of each fill. -/
def calendarRows (f : ReadFilter) (gran : Granularity) (executions : List TradeExecution) :
    List PeriodRow :=
  let keyed := executions.filterMap fun e =>
    (e.time.bind Date.ofUnixUtc).map fun d =>
      (periodKeyFromDate Date.midnightUtc gran d, execTotals f e)
  (sortedBy (fun g => g.1.startTs) (groupBy Prod.fst keyed)).map fun g =>
    periodRow g.1 (g.2.map Prod.snd)

/-! ## All aggregates -/

/-- The realised aggregates before the output is rounded. -/
structure RealizedBreakdown where
  totals : PnlTotals
  byAccount : List (String × PnlTotals)
  bySecType : List (String × PnlTotals)
  byAccountAndSecType : List ((String × String) × PnlTotals)
  byStrategyOpportunity : List (ℤ × PnlTotals)
  byTrade : List (ℤ × PnlTotals)
  calendar : List PeriodRow

/-- The aggregates of the executions that are read. -/
def realizedBreakdown (f : ReadFilter) (gran : Granularity) (executions : List TradeExecution) :
    RealizedBreakdown :=
  let accountOf := fun e : TradeExecution => textOrEmpty e.accountId
  let secTypeOf := fun e : TradeExecution => secTypeOrUnknown e.toExecution
  { totals := (executions.map (execTotals f)).sum
    byAccount := sortedBy Prod.fst (rollup accountOf (execTotals f) executions)
    bySecType := sortedBy Prod.fst (rollup secTypeOf (execTotals f) executions)
    byAccountAndSecType := sortedBy (fun x => toLex x.1 : _ → String ×ₗ String)
      (rollup (fun e => (accountOf e, secTypeOf e)) (execTotals f) executions)
    byStrategyOpportunity :=
      sortedBy Prod.fst (rollup Prod.fst Prod.snd (executions.flatMap (oppParts f.tradeId)))
    byTrade :=
      sortedBy Prod.fst (rollup Prod.fst Prod.snd (executions.flatMap (instParts f.tradeId)))
    calendar := calendarRows f gran executions }

/-! ## Summaries -/

/-- The realised figures of a `summary`. -/
structure PerformanceSummary where
  totalRealizedPnl : ℚ
  totalCommission : ℚ
  netPnl : ℚ
  fillCount : ℕ
  winCount : ℕ
  lossCount : ℕ
  winRate : Option ℚ
  profitFactor : Option Double
  avgWin : Option ℚ
  avgLoss : Option ℚ
  maxWin : Option ℚ
  maxLoss : Option ℚ
  deriving DecidableEq, Repr

/-- A summary as it is returned, from the totals and the P&L of the wins and of the losses. -/
def performanceSummary (totals : PnlTotals) (wins losses : List ℚ) : PerformanceSummary :=
  let sumLossesAbs := |losses.sum|
  { totalRealizedPnl := roundTo 2 totals.totalPnl
    totalCommission := roundTo 2 totals.commission
    netPnl := roundTo 2 totals.netPnl
    fillCount := totals.fillCount
    winCount := wins.length
    lossCount := losses.length
    winRate := (winRate wins.length losses.length).map (roundTo 4)
    profitFactor :=
      if 0 < sumLossesAbs then some (.fin (roundTo 4 (wins.sum / sumLossesAbs)))
      else if wins.sum = 0 then none
      else some .posInf
    avgWin := if wins = [] then none else some (roundTo 2 (wins.sum / wins.length))
    avgLoss := if losses = [] then none else some (roundTo 2 (losses.sum / losses.length))
    maxWin := wins.max?.map (roundTo 2)
    maxLoss := losses.min?.map (roundTo 2) }

/-- The summary of what fills add. -/
def summaryOfFills (totals : PnlTotals) (fills : List PnlTotals) : PerformanceSummary :=
  let pnls := fills.map PnlTotals.totalPnl
  performanceSummary totals (pnls.filter fun x => 0 < x) (pnls.filter fun x => x < 0)

/-- The curve of the net P&L, and its largest fall below an earlier peak. -/
def cumulativeCurve (f : ReadFilter) (executions : List TradeExecution) : List (ℚ × ℚ) :=
  let times := executions.map fun e => e.time.getD 0
  let running := (executions.map fun e => (execTotals f e).netPnl).scanl (· + ·) 0
  times.zip (running.tail.map (roundTo 2))

/-- The deepest fall of the curve below its peak so far. -/
def maxDrawdown (curve : List (ℚ × ℚ)) : Option ℚ :=
  let fall := (curve.foldl (fun st point =>
    let peak := max st.1 point.2
    (peak, max st.2 (peak - point.2))) ((0, 0) : ℚ × ℚ)).2
  if 0 < fall then some (roundTo 2 fall) else none

/-- The realised part of what `get_performance_stats` returns, without the percentages. -/
structure PerformanceStats where
  summary : PerformanceSummary
  maxDrawdown : Option ℚ
  realizedByAccount : List (String × PnlTotals)
  realizedBySecType : List (String × PnlTotals)
  realizedByAccountAndSecType : List ((String × String) × PnlTotals)
  realizedByStrategyOpportunity : List (ℤ × PnlTotals)
  realizedByTrade : List (ℤ × PnlTotals)
  calendar : List PeriodRow
  calendarBySecType : List CalendarRow
  cumulativeCurve : List (ℚ × ℚ)

/-- A row as it is returned. -/
def roundedRow {κ : Type} (row : κ × PnlTotals) : κ × PnlTotals := (row.1, row.2.rounded)

section Readers

variable (chicago : ℚ → Option Date) (chicagoMidnight : Date → ℚ)

/-- `executions_sorted`. -/
def performanceExecutions (book : TradeBook) (sinceTs untilTs : Option ℚ) (f : ReadFilter) :
    List TradeExecution :=
  tradesByTime (getTradeExecutions chicago book sinceTs untilTs f 5000)

/-- `get_performance_stats` in exact arithmetic; `none` where a time has no date, which raises. -/
def getPerformanceStats (book : TradeBook) (sinceTs untilTs : Option ℚ) (f : ReadFilter)
    (gran : Granularity) : Option PerformanceStats :=
  let executions := performanceExecutions chicago book sinceTs untilTs f
  let realized := realizedBreakdown f gran executions
  let curve := Portfolio.cumulativeCurve f executions
  (tradeCalendarBySecType chicago chicagoMidnight book sinceTs untilTs f gran).map fun bySec =>
    { summary := summaryOfFills realized.totals (executions.map (execTotals f))
      maxDrawdown := Portfolio.maxDrawdown curve
      realizedByAccount := realized.byAccount.map roundedRow
      realizedBySecType := realized.bySecType.map roundedRow
      realizedByAccountAndSecType := realized.byAccountAndSecType.map roundedRow
      realizedByStrategyOpportunity := realized.byStrategyOpportunity.map roundedRow
      realizedByTrade := realized.byTrade.map roundedRow
      calendar := realized.calendar
      calendarBySecType := bySec
      cumulativeCurve := curve }

/-- `get_performance_instance_summary_only` in exact arithmetic: the fills of the trade with a
positive weight. -/
def getPerformanceInstanceSummaryOnly (book : TradeBook) (tradeId : ℤ)
    (sinceTs untilTs : Option ℚ) : PerformanceSummary :=
  let f := tradeFilter none none tradeId
  let kept := (getTradeExecutions chicago book sinceTs untilTs f 50000).filter fun e =>
    0 < weightRealizedForTrade e tradeId
  let fills := kept.map fun e => PnlTotals.ofFill
    (finiteOrZero e.realizedPnl * weightRealizedForTrade e tradeId)
    (finiteOrZero e.commission * weightRealizedForTrade e tradeId)
  let totals : PnlTotals := fills.sum
  -- the net P&L is the difference of the totals
  summaryOfFills { totals with netPnl := totals.totalPnl - totals.commission } fills

end Readers

end Portfolio
