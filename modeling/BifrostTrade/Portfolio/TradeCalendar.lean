import BifrostTrade.Portfolio.OptCalendarProof
import BifrostTrade.Portfolio.TradeSlice

/-!
# The calendar of a trade

`get_performance_stats` of `portfolio/reader/executions.py` under its trade and opportunity
filters: `calendar_by_sec_type` weights the fills of the other security types by
`weight_realized_for_trade`, and pairs the option fills as they are.
-/

namespace Portfolio

open Py FifoMatching

/-! ## Reading the executions of a trade -/

/-- A row of the executions book with its attribution; its splits are those of its account. -/
structure AttributedRow extends ExecutionRow where
  contractKey : Option String
  taxes : Option Double
  netCash : Option Double
  tradeId : Option ℤ
  tradeLabel : Option String
  strategyOpportunityId : Option ℤ
  strategyOpportunityName : Option String
  fillSplits : List FillSplit
  deriving DecidableEq

/-- The dictionary a row is returned as, with its splits attached. -/
def AttributedRow.toTradeExecution (r : AttributedRow) : TradeExecution where
  toExecution := r.toExecutionRow.toExecution
  contractKey := r.contractKey
  taxes := r.taxes
  netCash := r.netCash
  tradeId := r.tradeId
  tradeLabel := r.tradeLabel
  strategyOpportunityId := r.strategyOpportunityId
  strategyOpportunityName := r.strategyOpportunityName
  fillSplits := r.fillSplits

/-- A book with its attribution: ids are unique. -/
structure TradeBook where
  rows : List AttributedRow
  ids_nodup : (rows.map fun r => r.accountExecutionsId).Nodup

/-- The book without the attribution. -/
def TradeBook.toBook (book : TradeBook) : Book where
  rows := book.rows.map AttributedRow.toExecutionRow
  ids_nodup := by
    rw [List.map_map]
    exact book.ids_nodup

/-- The filters of a read. -/
structure ReadFilter where
  accountId : Option String
  strategyOpportunityId : Option ℤ
  tradeId : Option ℤ

/-- The row is in the filters. -/
def ReadFilter.Selects (f : ReadFilter) (r : AttributedRow) : Prop :=
  (strip (textOrEmpty f.accountId) = "" ∨ r.accountId = strip (textOrEmpty f.accountId)) ∧
    (∀ o ∈ f.strategyOpportunityId, r.strategyOpportunityId = some o) ∧
    ∀ t ∈ f.tradeId, r.tradeId = some t ∨ ∃ a ∈ r.fillSplits, a.tradeId = t

instance (f : ReadFilter) (r : AttributedRow) : Decidable (f.Selects r) :=
  inferInstanceAs (Decidable (_ ∧ _ ∧ _))

/-- The filters of a read for a trade. -/
def tradeFilter (accountId : Option String) (strategyOpportunityId : Option ℤ) (t : ℤ) :
    ReadFilter :=
  ⟨accountId, strategyOpportunityId, some t⟩

section Calendar

variable (chicago : ℚ → Option Date) (chicagoMidnight : Date → ℚ)

/-- `get_executions` with its filters. -/
def getTradeExecutions (book : TradeBook) (sinceTs untilTs : Option ℚ) (f : ReadFilter)
    (limit : ℕ) : List TradeExecution :=
  if (∃ ts ∈ sinceTs, chicago ts = none) ∨ ∃ ts ∈ untilTs, chicago ts = none then []
  else
    let rows := book.rows.filter fun r =>
      (∀ s ∈ sinceTs.bind chicago, ∃ d ∈ r.tradeDate, s ≤ d) ∧
        (∀ u ∈ untilTs.bind chicago, ∃ d ∈ r.tradeDate, d ≤ u) ∧ f.Selects r
    let sorted := sortedBy (fun r => readOrder r.toExecutionRow) rows
    (if 0 < limit then sorted.take limit else sorted).map AttributedRow.toTradeExecution

/-- The executions with a time, by time. -/
def tradesByTime (executions : List TradeExecution) : List TradeExecution :=
  sortedBy (fun e => e.time.getD 0) (executions.filter fun e => e.time.isSome)

/-- The legs the option calendar pairs. -/
def tradeOptLegs (book : TradeBook) (sinceTs untilTs : Option ℚ) (f : ReadFilter) :
    List TradeExecution :=
  match sinceTs with
  | none => tradesByTime (getTradeExecutions chicago book none untilTs f 5000)
  | some since =>
      tradesByTime ((getTradeExecutions chicago book (some (since - optPairLookbackDays * 86400))
        untilTs f optPairLookbackLimit).filter fun e => e.isOpt)

/-- `_perf_inst_weight`. -/
def perfInstWeight (f : ReadFilter) (ex : TradeExecution) : ℚ :=
  match f.tradeId with
  | none => 1
  | some t => weightRealizedForTrade ex t

/-- The figures of a fill with the weight of the trade. -/
def weighted (f : ReadFilter) (ex : TradeExecution) : Execution :=
  { ex.toExecution with
    realizedPnl := some (.fin (finiteOrZero ex.realizedPnl * perfInstWeight f ex))
    commission := some (.fin (finiteOrZero ex.commission * perfInstWeight f ex)) }

/-- The dates of the range that the pairs must close in. -/
def closingRange (sinceTs untilTs : Option ℚ) : Option Date × Option Date :=
  (sinceTs.bind chicago, if sinceTs.isSome then untilTs.bind chicago else none)

/-- The option calendar of legs, over a range. -/
def optCalendarOf (legs : List TradeExecution) (sinceTs untilTs : Option ℚ) (gran : Granularity) :
    List CalendarRow :=
  computeOptRealizedCalendar chicago chicagoMidnight (legs.map TradeExecution.toExecution) gran
    (closingRange chicago sinceTs untilTs).1 (closingRange chicago sinceTs untilTs).2

/-- `calendar_by_sec_type` of `get_performance_stats` under the filters; `none` when a time has no
date. -/
def tradeCalendarBySecType (book : TradeBook) (sinceTs untilTs : Option ℚ) (f : ReadFilter)
    (gran : Granularity) : Option (List CalendarRow) :=
  let executions := tradesByTime (getTradeExecutions chicago book sinceTs untilTs f 5000)
  if (∃ ts ∈ sinceTs, chicago ts = none) ∨ (sinceTs.isSome ∧ ∃ ts ∈ untilTs, chicago ts = none) ∨
      ∃ e ∈ executions, e.time.bind Date.ofUnixUtc = none then none
  else
    let optCalendar := optCalendarOf chicago chicagoMidnight
      (tradeOptLegs chicago book sinceTs untilTs f) sinceTs untilTs gran
    some (sortedBy (fun r => toLex (r.periodStartTs, r.secType) : _ → ℚ ×ₗ String)
      (optCalendar ++ otherRows gran (executions.map (weighted f))))

end Calendar

/-! ## Without filters -/

section Unfiltered

variable {chicago : ℚ → Option Date} {chicagoMidnight : Date → ℚ}

theorem getTradeExecutions_unfiltered (book : TradeBook) (sinceTs untilTs : Option ℚ)
    (accountId : Option String) (limit : ℕ) :
    (getTradeExecutions chicago book sinceTs untilTs ⟨accountId, none, none⟩ limit).map
        TradeExecution.toExecution =
      getExecutions chicago book.toBook sinceTs untilTs accountId limit := by
  unfold getTradeExecutions getExecutions
  split_ifs with hfail hlimit
  · rfl
  · simp [TradeBook.toBook, List.filter_map, sortedBy_map, ReadFilter.Selects, Function.comp_def,
      AttributedRow.toTradeExecution, List.map_take]
  · simp [TradeBook.toBook, List.filter_map, sortedBy_map, ReadFilter.Selects, Function.comp_def,
      AttributedRow.toTradeExecution]

theorem tradesByTime_map (executions : List TradeExecution) :
    (tradesByTime executions).map TradeExecution.toExecution =
      sortedByTime (executions.map TradeExecution.toExecution) := by
  simp only [tradesByTime, sortedByTime, List.filter_map, sortedBy_map, Function.comp_def]

theorem tradeOptLegs_unfiltered (book : TradeBook) (sinceTs untilTs : Option ℚ)
    (accountId : Option String) :
    (tradeOptLegs chicago book sinceTs untilTs ⟨accountId, none, none⟩).map
        TradeExecution.toExecution =
      optLegs chicago book.toBook sinceTs untilTs accountId := by
  cases sinceTs with
  | none => rw [tradeOptLegs, optLegs, tradesByTime_map, getTradeExecutions_unfiltered]
  | some since =>
    rw [tradeOptLegs, optLegs, tradesByTime_map, ← getTradeExecutions_unfiltered]
    rw [List.filter_map, Function.comp_def]

/-- An execution with the figures as the rows of its security type sum them. -/
def Execution.asSummed (e : Execution) : Execution :=
  { e with
    quantity := none
    realizedPnl := some (.fin (finiteOrZero e.realizedPnl))
    commission := some (.fin (finiteOrZero e.commission)) }

theorem finiteOrZero_fin (x : ℚ) : finiteOrZero (some (.fin x)) = x := rfl

theorem secTypeOrUnknown_asSummed (e : Execution) :
    secTypeOrUnknown e.asSummed = secTypeOrUnknown e := by
  have h : e.asSummed.secType = e.secType := rfl
  rw [secTypeOrUnknown, h, secTypeOrUnknown]

theorem fillPeriodRow_asSummed (pk : PeriodKey) (secType : String) (fills : List Execution) :
    fillPeriodRow pk secType (fills.map Execution.asSummed) = fillPeriodRow pk secType fills := by
  simp only [fillPeriodRow, List.countP_map, List.map_map, List.length_map, Function.comp_def,
    Execution.asSummed, finiteOrZero_fin]
  rfl

theorem otherRows_asSummed (gran : Granularity) (executions : List Execution) :
    otherRows gran (executions.map Execution.asSummed) = otherRows gran executions := by
  have hfilter : (executions.map Execution.asSummed).filter
        (fun e => secTypeOrUnknown e ≠ "OPT") =
      (executions.filter fun e => secTypeOrUnknown e ≠ "OPT").map Execution.asSummed := by
    have hp : ∀ e, decide (secTypeOrUnknown (Execution.asSummed e) ≠ "OPT") =
        decide (secTypeOrUnknown e ≠ "OPT") := fun e => by rw [secTypeOrUnknown_asSummed]
    rw [List.filter_map]
    simp only [Function.comp_def, hp]
  have hkeyed : ∀ l : List Execution,
      ((l.map Execution.asSummed).filterMap fun e => (e.time.bind Date.ofUnixUtc).map fun d =>
        ((periodKeyFromDate Date.midnightUtc gran d, secTypeOrUnknown e), e)) =
      (l.filterMap fun e => (e.time.bind Date.ofUnixUtc).map fun d =>
        ((periodKeyFromDate Date.midnightUtc gran d, secTypeOrUnknown e), e)).map
          fun x => (x.1, x.2.asSummed) := by
    intro l
    rw [List.filterMap_map, List.map_filterMap]
    refine List.filterMap_congr fun e _ => ?_
    have htime : e.asSummed.time = e.time := rfl
    rw [Function.comp_apply, htime, secTypeOrUnknown_asSummed, Option.map_map]
    rfl
  rw [otherRows, hfilter, hkeyed, groupBy_map, sortedBy_map, List.map_map, otherRows]
  refine List.map_congr_left fun g _ => ?_
  have hfills : (g.2.map fun x => (x.1, x.2.asSummed)).map Prod.snd =
      (g.2.map Prod.snd).map Execution.asSummed := by
    rw [List.map_map, List.map_map]
    rfl
  rw [Function.comp_apply, hfills, fillPeriodRow_asSummed]

/-- Without a trade the figures have their whole weight. -/
theorem otherRows_weighted_unfiltered (accountId : Option String) (gran : Granularity)
    (executions : List TradeExecution) :
    otherRows gran (executions.map (weighted ⟨accountId, none, none⟩)) =
      otherRows gran (executions.map TradeExecution.toExecution) := by
  rw [← otherRows_asSummed, ← otherRows_asSummed _ (executions.map TradeExecution.toExecution),
    List.map_map, List.map_map]
  refine congrArg _ (List.map_congr_left fun e _ => ?_)
  simp only [Function.comp_apply, Execution.asSummed, weighted, perfInstWeight, mul_one,
    finiteOrZero_fin]

/-- Without a trade and an opportunity it is the calendar of the book. -/
theorem tradeCalendarBySecType_unfiltered (book : TradeBook) (sinceTs untilTs : Option ℚ)
    (accountId : Option String) (gran : Granularity) :
    tradeCalendarBySecType chicago chicagoMidnight book sinceTs untilTs ⟨accountId, none, none⟩
        gran =
      calendarBySecType chicago chicagoMidnight book.toBook sinceTs untilTs accountId gran := by
  have hread : (tradesByTime (getTradeExecutions chicago book sinceTs untilTs
      ⟨accountId, none, none⟩ 5000)).map TradeExecution.toExecution =
        sortedByTime (getExecutions chicago book.toBook sinceTs untilTs accountId 5000) := by
    rw [tradesByTime_map, getTradeExecutions_unfiltered]
  have hutc : (∃ e ∈ tradesByTime (getTradeExecutions chicago book sinceTs untilTs
      ⟨accountId, none, none⟩ 5000), e.time.bind Date.ofUnixUtc = none) ↔
        ∃ e ∈ sortedByTime (getExecutions chicago book.toBook sinceTs untilTs accountId 5000),
          e.time.bind Date.ofUnixUtc = none := by
    rw [← hread]
    simp only [List.mem_map, exists_exists_and_eq_and]
  rw [tradeCalendarBySecType, calendarBySecType]
  simp only [hutc, optCalendarOf, tradeOptLegs_unfiltered, otherRows_weighted_unfiltered, hread,
    closingRange]

end Unfiltered

/-! ## What is read -/

section Read

variable (chicago : ℚ → Option Date)

/-- A read returns rows of the book that its filters select, once each. -/
theorem getTradeExecutions_spec (book : TradeBook) (sinceTs untilTs : Option ℚ) (f : ReadFilter)
    (limit : ℕ) :
    ∃ rows : List AttributedRow,
      getTradeExecutions chicago book sinceTs untilTs f limit =
        rows.map AttributedRow.toTradeExecution ∧
      (rows.map fun r => r.accountExecutionsId).Nodup ∧ ∀ r ∈ rows, f.Selects r := by
  unfold getTradeExecutions
  by_cases hfail : (∃ ts ∈ sinceTs, chicago ts = none) ∨ ∃ ts ∈ untilTs, chicago ts = none
  · exact ⟨[], by rw [if_pos hfail, List.map_nil], List.nodup_nil, by simp⟩
  · rw [if_neg hfail]
    dsimp only
    have hids : ∀ rows : List AttributedRow, rows.Sublist book.rows →
        ((sortedBy (fun r => readOrder r.toExecutionRow) rows).map
          fun r => r.accountExecutionsId).Nodup := fun rows h =>
      ((sortedBy_perm _ rows).map _).nodup_iff.2 (book.ids_nodup.sublist (h.map _))
    split_ifs
    · refine ⟨_, rfl, (hids _ List.filter_sublist).sublist ((List.take_sublist ..).map _), ?_⟩
      intro r hr
      have hr := (List.mem_filter.1 (mem_sortedBy.1 (List.mem_of_mem_take hr))).2
      exact (of_decide_eq_true hr).2.2
    · refine ⟨_, rfl, hids _ List.filter_sublist, ?_⟩
      intro r hr
      have hr := (List.mem_filter.1 (mem_sortedBy.1 hr)).2
      exact (of_decide_eq_true hr).2.2

theorem mem_tradesByTime {executions : List TradeExecution} {e : TradeExecution}
    (h : e ∈ tradesByTime executions) : e ∈ executions :=
  List.mem_of_mem_filter (mem_sortedBy.1 h)

theorem tradesByTime_nodup {executions : List TradeExecution}
    (h : (executions.map fun e => e.accountExecutionsId).Nodup) :
    ((tradesByTime executions).map fun e => e.accountExecutionsId).Nodup :=
  ((sortedBy_perm _ _).map _).nodup_iff.2 (h.sublist (List.filter_sublist.map _))

/-- The legs are executions of the filters, each with an id of its own. -/
theorem tradeOptLegs_spec (book : TradeBook) (sinceTs untilTs : Option ℚ) (f : ReadFilter) :
    ((tradeOptLegs chicago book sinceTs untilTs f).map fun e => e.accountExecutionsId).Nodup ∧
      ∀ e ∈ tradeOptLegs chicago book sinceTs untilTs f,
        e.accountExecutionsId.isSome ∧ ∃ r, f.Selects r ∧ r.toTradeExecution = e := by
  have hread : ∀ since limit,
      ((getTradeExecutions chicago book since untilTs f limit).map
        fun e => e.accountExecutionsId).Nodup ∧
      ∀ e ∈ getTradeExecutions chicago book since untilTs f limit,
        e.accountExecutionsId.isSome ∧ ∃ r, f.Selects r ∧ r.toTradeExecution = e := by
    intro since limit
    obtain ⟨rows, hrows, hids, hsel⟩ := getTradeExecutions_spec chicago book since untilTs f limit
    rw [hrows]
    constructor
    · have := hids.map (Option.some_injective ℤ)
      rwa [List.map_map] at this ⊢
    · intro e he
      obtain ⟨r, hr, rfl⟩ := List.mem_map.1 he
      exact ⟨rfl, r, hsel r hr, rfl⟩
  cases sinceTs with
  | none =>
    obtain ⟨hids, hmem⟩ := hread none 5000
    exact ⟨tradesByTime_nodup hids, fun e he => hmem e (mem_tradesByTime he)⟩
  | some since =>
    obtain ⟨hids, hmem⟩ := hread (some (since - optPairLookbackDays * 86400)) optPairLookbackLimit
    refine ⟨tradesByTime_nodup (hids.sublist (List.filter_sublist.map _)), fun e he => ?_⟩
    exact hmem e (List.mem_of_mem_filter (mem_tradesByTime he))

end Read

end Portfolio
