import BifrostTrade.Portfolio.OptPairs

/-!
# The realised P&L calendar by security type

`_compute_opt_realized_calendar` of `portfolio/reader/accounts_helpers.py`, and the part of
`get_performance_stats` of `portfolio/reader/executions.py` that reads the executions of a range
and builds `calendar_by_sec_type`, without a trade or opportunity filter.  The option rows pair
over a look-back before the range and keep the pairs that close in the range.
-/

namespace Portfolio

open Py FifoMatching

/-! ## Periods -/

/-- `granularity`: anything but a month or a week is a day. -/
inductive Granularity where
  | month
  | week
  | day
  deriving DecidableEq, Repr

/-- A period by its start and its label. -/
structure PeriodKey where
  startTs : ℚ
  label : String
  deriving DecidableEq, Repr

/-- The first day of the period of a date, and its label. -/
def periodStart (gran : Granularity) (d : Date) : Date × String :=
  match gran with
  | .month => (d.firstOfMonth, String.ofList (d.isoChars.take 7))
  | .week => (d.weekStart, d.weekStart.isoformat)
  | .day => (d, d.isoformat)

/-- The period of a date; `midnight` gives the Unix time at which a day starts. -/
def periodKeyFromDate (midnight : Date → ℚ) (gran : Granularity) (d : Date) : PeriodKey :=
  let start := periodStart gran d
  ⟨midnight start.1, start.2⟩

/-! ## Rows -/

/-- A row of `calendar_by_sec_type`, without the percentages. `count` counts pairs in an option
row and fills in the others; only option rows list pairs. -/
structure CalendarRow where
  periodStartTs : ℚ
  periodLabel : String
  secType : String
  pnl : ℚ
  commission : ℚ
  netPnl : ℚ
  count : ℕ
  winCount : ℕ
  lossCount : ℕ
  winRate : Option ℚ
  pairs : List OptPair
  deriving DecidableEq, Repr

/-- The part of wins; none without a win or a loss. -/
def winRate (wins losses : ℕ) : Option ℚ :=
  if 0 < wins + losses then some (wins / (wins + losses : ℕ)) else none

/-- The totals of the option pairs of one period. -/
def optPeriodRow (pk : PeriodKey) (pairs : List OptPair) : CalendarRow :=
  let wins := pairs.countP fun p => 0 < p.netPnl
  let losses := pairs.countP fun p => p.netPnl < 0
  { periodStartTs := pk.startTs
    periodLabel := pk.label
    secType := "OPT"
    pnl := roundTo 2 (pairs.map fun p => p.netPnl + p.commission).sum
    commission := roundTo 2 (pairs.map OptPair.commission).sum
    netPnl := roundTo 2 (pairs.map OptPair.netPnl).sum
    count := pairs.length
    winCount := wins
    lossCount := losses
    winRate := winRate wins losses
    pairs := pairs }

/-- A figure that counts as zero when it is missing or not finite. -/
def finiteOrZero (x : Option Double) : ℚ := (x.bind finiteValue).getD 0

/-- The totals of the fills of one period and security type. -/
def fillPeriodRow (pk : PeriodKey) (secType : String) (fills : List Execution) : CalendarRow :=
  let wins := fills.countP fun e => 0 < finiteOrZero e.realizedPnl
  let losses := fills.countP fun e => finiteOrZero e.realizedPnl < 0
  { periodStartTs := pk.startTs
    periodLabel := pk.label
    secType := secType
    pnl := (fills.map fun e => finiteOrZero e.realizedPnl).sum
    commission := (fills.map fun e => finiteOrZero e.commission).sum
    netPnl := (fills.map fun e => finiteOrZero e.realizedPnl - finiteOrZero e.commission).sum
    count := fills.length
    winCount := wins
    lossCount := losses
    winRate := winRate wins losses
    pairs := [] }

section Calendar

-- the date in Chicago of a Unix time, and the Unix time of a midnight in Chicago
variable (chicago : ℚ → Option Date) (chicagoMidnight : Date → ℚ)

/-! ## Option rows -/

/-- `_leg_chicago_date` of an execution. -/
def legDate (e : Execution) : Option Date :=
  let ofTime := e.time.bind chicago
  match e.tradeDate with
  | some (.date d) => some d
  | some (.text s) =>
      if 10 ≤ s.length then
        (Date.parseIso (String.ofList (s.toList.take 10))).or ofTime
      else ofTime
  | none => ofTime

/-- `_leg_chicago_date`: the last execution with the id counts. -/
def legChicagoDate (executions : List Execution) (eid : ℤ) : Option Date :=
  (executions.reverse.find? fun e => e.accountExecutionsId = some eid).bind (legDate chicago)

/-- The date a pair is attributed to: that of the later leg. -/
def attrDate (executions : List Execution) (p : OptPair) : Option Date :=
  match legChicagoDate chicago executions p.legCExecutionId,
    legChicagoDate chicago executions p.legPExecutionId with
  | some dc, some dp => some (max dc dp)
  | dc, dp => dc.or dp

/-- The date lies in a range whose ends may be open. -/
def InRange (since until_ : Option Date) (d : Date) : Prop :=
  (∀ s ∈ since, s ≤ d) ∧ ∀ u ∈ until_, d ≤ u

instance (since until_ : Option Date) (d : Date) : Decidable (InRange since until_ d) :=
  inferInstanceAs (Decidable (_ ∧ _))

/-- One row a period from the pairs with their dates, the periods in order. -/
def optRows (gran : Granularity) (dated : List (Date × OptPair)) : List CalendarRow :=
  let periods := groupBy Prod.fst
    (dated.map fun x => (periodKeyFromDate chicagoMidnight gran x.1, x.2))
  (sortedBy (fun g => g.1.startTs) periods).map fun g => optPeriodRow g.1 (g.2.map Prod.snd)

/-- `_compute_opt_realized_calendar`. -/
def computeOptRealizedCalendar (executions : List Execution) (gran : Granularity)
    (sinceDate untilDate : Option Date) : List CalendarRow :=
  let optPairs := (computeOptPairMapAndPairs chicago executions).2
  optRows chicagoMidnight gran (optPairs.filterMap fun p =>
    (attrDate chicago executions p).bind fun d =>
      if InRange sinceDate untilDate d then some (d, p) else none)

/-! ## Reading the executions -/

/-- A row of the executions book. -/
structure ExecutionRow where
  accountExecutionsId : ℤ
  accountId : String
  symbol : Option String
  secType : Option String
  side : Option String
  quantity : Option Double
  price : Option Double
  commission : Option Double
  realizedPnl : Option Double
  expiry : Option String
  strike : Option Double
  optionRight : Option String
  tradeDate : Option Date
  execTime : Option ℚ
  deriving DecidableEq, Repr

/-- The dictionary a row is returned as. -/
def ExecutionRow.toExecution (r : ExecutionRow) : Execution where
  accountExecutionsId := some r.accountExecutionsId
  accountId := some r.accountId
  symbol := r.symbol
  secType := r.secType
  side := r.side
  quantity := r.quantity
  price := r.price
  commission := r.commission
  realizedPnl := r.realizedPnl
  expiry := r.expiry
  strike := r.strike
  optionRight := r.optionRight
  tradeDate := r.tradeDate.map .date
  time := r.execTime

/-- The book a scope selects: ids are unique. -/
structure Book where
  rows : List ExecutionRow
  ids_nodup : (rows.map ExecutionRow.accountExecutionsId).Nodup

/-- `ORDER BY trade_date DESC NULLS LAST, exec_time DESC NULLS LAST, account_executions_id DESC`:
a missing value is the lowest. -/
def readOrder (r : ExecutionRow) : (WithBot Date ×ₗ WithBot ℚ ×ₗ ℤ)ᵒᵈ :=
  OrderDual.toDual (toLex (r.tradeDate, toLex (r.execTime, r.accountExecutionsId)))

/-- `get_executions`: the rows of the account whose trade date lies between the Chicago dates of
the two times, the newest `limit` of them. -/
def getExecutions (book : Book) (sinceTs untilTs : Option ℚ) (accountId : Option String)
    (limit : ℕ) : List Execution :=
  -- a time that has no date makes the read fail, and a failed read is empty
  if (∃ ts ∈ sinceTs, chicago ts = none) ∨ ∃ ts ∈ untilTs, chicago ts = none then []
  else
    let account := strip (textOrEmpty accountId)
    let rows := book.rows.filter fun r =>
      (∀ s ∈ sinceTs.bind chicago, ∃ d ∈ r.tradeDate, s ≤ d) ∧
        (∀ u ∈ untilTs.bind chicago, ∃ d ∈ r.tradeDate, d ≤ u) ∧
        (account = "" ∨ r.accountId = account)
    let sorted := sortedBy readOrder rows
    (if 0 < limit then sorted.take limit else sorted).map ExecutionRow.toExecution

/-! ## The calendar of a range -/

/-- `_OPT_PAIR_LOOKBACK_DAYS`. -/
def optPairLookbackDays : ℚ := 365

/-- `_OPT_PAIR_LOOKBACK_LIMIT`. -/
def optPairLookbackLimit : ℕ := 20000

/-- The executions with a time, by time. -/
def sortedByTime (executions : List Execution) : List Execution :=
  sortedBy (fun e => e.time.getD 0) (executions.filter fun e => e.time.isSome)

/-- The legs the option calendar pairs. -/
def optLegs (book : Book) (sinceTs untilTs : Option ℚ) (accountId : Option String) :
    List Execution :=
  match sinceTs with
  | none => sortedByTime (getExecutions chicago book none untilTs accountId 5000)
  | some since =>
      sortedByTime ((getExecutions chicago book (some (since - optPairLookbackDays * 86400))
        untilTs accountId optPairLookbackLimit).filter fun e => e.isOpt)

/-- The security type of a row; an empty one is unknown. -/
def secTypeOrUnknown (e : Execution) : String :=
  let st := upper (strip (match e.secType with
    | some "" => "UNKNOWN"
    | some s => s
    | none => "UNKNOWN"))
  if st = "" then "UNKNOWN" else st

/-- The rows of the other security types, by the UTC day of each fill. -/
def otherRows (gran : Granularity) (executions : List Execution) : List CalendarRow :=
  let keyed := (executions.filter fun e => secTypeOrUnknown e ≠ "OPT").filterMap fun e =>
    (e.time.bind Date.ofUnixUtc).map fun d =>
      ((periodKeyFromDate Date.midnightUtc gran d, secTypeOrUnknown e), e)
  (sortedBy (fun g => toLex (g.1.1.startTs, g.1.2) : _ → ℚ ×ₗ String)
    (groupBy Prod.fst keyed)).map fun g => fillPeriodRow g.1.1 g.1.2 (g.2.map Prod.snd)

/-- `calendar_by_sec_type` of `get_performance_stats`; `none` when a time has no date. -/
def calendarBySecType (book : Book) (sinceTs untilTs : Option ℚ) (accountId : Option String)
    (gran : Granularity) : Option (List CalendarRow) :=
  let executions := sortedByTime (getExecutions chicago book sinceTs untilTs accountId 5000)
  if (∃ ts ∈ sinceTs, chicago ts = none) ∨ (sinceTs.isSome ∧ ∃ ts ∈ untilTs, chicago ts = none) ∨
      ∃ e ∈ executions, e.time.bind Date.ofUnixUtc = none then none
  else
    let sinceDate := sinceTs.bind chicago
    let untilDate := if sinceTs.isSome then untilTs.bind chicago else none
    let optCalendar := computeOptRealizedCalendar chicago chicagoMidnight
      (optLegs chicago book sinceTs untilTs accountId) gran sinceDate untilDate
    some (sortedBy (fun r => toLex (r.periodStartTs, r.secType) : _ → ℚ ×ₗ String)
      (optCalendar ++ otherRows gran executions))

end Calendar

end Portfolio
