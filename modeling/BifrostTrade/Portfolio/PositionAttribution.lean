import BifrostTrade.Lib.Python
import BifrostTrade.Persistence.AccountsSync
import BifrostTrade.Persistence.ExecutionTables
import Mathlib.Data.Prod.Lex

/-!
# Position attribution

`portfolio/reader/executions.py`, `get_position_instance_attribution`: the query that gives each
open position the executions of its contract, and the rows built from it.  Prices, the estimates
made from them and the names of trades and structures are left out.

The database's cast of a text to a number is the parameter `cast`; a text it does not take makes
the query fail.  Which of two orders its plan takes for the TWS rows of a position that has final
rows (join them and drop them, or drop them unread) is the parameter `joinsTwsOfFinal`.
-/

namespace Portfolio.Attribution

open Py Persistence

/-! ## Rows -/

/-- A row of `executions_final` or `executions_tws`. -/
structure ExecutionRow where
  accountExecutionsId : ℤ
  accountId : Option String
  contractKey : Option String
  symbol : Option String
  underlyingSymbol : Option String
  secType : Option String
  expiry : Option String
  strike : Option ℚ
  optionRight : Option String
  side : Option String
  quantity : Option ℚ
  tradeId : Option ℤ
  strategyOpportunityId : Option ℤ
  deriving DecidableEq

/-- A row of `trade_fill_splits`. -/
structure FillSplit where
  accountId : Option String
  accountExecutionsId : ℤ
  tradeId : ℤ
  quantity : ℚ
  deriving DecidableEq

/-- What the query reads. -/
structure Books where
  positions : Sql.Table PositionRow.key
  executionsFinal : List ExecutionRow
  executionsTws : List ExecutionRow
  tradeFillSplits : List FillSplit
  trades : Sql.Table TradeRow.tradeId

/-! ## The join of a position and an execution -/

/-- `split_part(s, '|', n)`: empty where there is no such part. -/
def splitPart (s : String) (n : ℕ) : String :=
  String.ofList ((s.toList.splitOn '|').getD (n - 1) [])

/-- `COALESCE(split_part(key, '|', n), column, '')`. -/
def keyPartOr (key : Option String) (n : ℕ) (column : Option String) : String :=
  ((key.map fun k => splitPart k n).or column).getD ""

/-- `upper(trim(s))` of SQL. -/
def trimUpper (s : String) : String := upper (trimSpaces s)

/-- The conditions of `_POS_EXEC_JOIN_PE` on two options, up to the strikes: never the symbol. -/
def optionPartsMatch (p : PositionRow) (e : ExecutionRow) : Bool :=
  let pKey := some p.contractKey
  trimUpper (keyPartOr pKey 2 p.secType) = "OPT" ∧
    trimUpper (keyPartOr e.contractKey 2 e.secType) = "OPT" ∧
    trimSpaces (keyPartOr pKey 3 p.expiry) = trimSpaces (keyPartOr e.contractKey 3 e.expiry) ∧
    trimUpper (keyPartOr pKey 5 p.optionRight) =
      trimUpper (keyPartOr e.contractKey 5 e.optionRight) ∧
    trimSpaces (keyPartOr pKey 4 none) ≠ "" ∧ trimSpaces (keyPartOr e.contractKey 4 none) ≠ ""

/-- `abs(a - b) < 1e-9`; the difference of two infinities is not a number. -/
def near : Double → Double → Bool
  | .fin a, .fin b => |a - b| < 1 / 1000000000
  | _, _ => false

/-- `_POS_EXEC_JOIN_PE`; `none` where a strike does not cast. -/
def posExecJoin (cast : String → Option Double) (p : PositionRow) (e : ExecutionRow) :
    Option Bool :=
  let otherKey : Bool := trimUpper (p.secType.getD "") ≠ "OPT" ∧ e.contractKey = some p.contractKey
  if optionPartsMatch p e then
    match cast (keyPartOr (some p.contractKey) 4 none), cast (keyPartOr e.contractKey 4 none) with
    | some a, some b => some (near a b || otherKey)
    | _, _ => none
  else some otherKey

/-! ## The contract of a row -/

/-- `underlying_symbol_from_row`: the underlying of Flex, else the first word of the symbol. -/
def underlyingSymbolFromRow (underlyingSymbol symbol : Option String) : String :=
  let u := strip (textOrEmpty underlyingSymbol)
  if u ≠ "" then upper u
  else upper (String.ofList ((strip (textOrEmpty symbol)).toList.takeWhile fun c => !isSpace c))

/-- A part of the key where it says something, else the column. -/
def keyPartElse (key : Option String) (n : ℕ) (column : Option String) : String :=
  let part := strip (keyPartOr key n none)
  if part ≠ "" then part else strip (textOrEmpty column)

/-- What tells one option from another. -/
structure OptionTerms where
  underlying : String
  expiry : String
  strike : Double
  right : Option Char
  deriving DecidableEq

/-- The terms of an option row; none without a strike.  Expiry and right are read as the execution
writers normalise them. -/
def optionTerms (cast : String → Option Double) (key symbol underlyingSymbol expiry : Option String)
    (strike : Option ℚ) (optionRight : Option String) : Option OptionTerms :=
  let underlying := underlyingSymbolFromRow underlyingSymbol symbol
  let fromKey := underlyingSymbolFromRow none (some (keyPartOr key 1 none))
  (((cast (keyPartOr key 4 none)).or (strike.map Double.fin))).map fun strike =>
    { underlying := if underlying ≠ "" then underlying else fromKey
      expiry := String.ofList ((keyPartElse key 3 expiry).toList.filter (· ≠ '-'))
      strike
      right := (upper (keyPartElse key 5 optionRight)).toList.head? }

/-- Whether a row is of an option, by its key where that says so, else by its column. -/
def isOptionRow (key secType : Option String) : Bool := upper (keyPartElse key 2 secType) = "OPT"

/-- The execution is of the position's contract: for options the same underlying, expiry, strike
and right, for everything else the same key. -/
def sameContract (cast : String → Option Double) (p : PositionRow) (e : ExecutionRow) : Bool :=
  if isOptionRow (some p.contractKey) p.secType then
    isOptionRow e.contractKey e.secType ∧
      (optionTerms cast (some p.contractKey) p.symbol none p.expiry p.strike p.optionRight).any
        fun t => optionTerms cast e.contractKey e.symbol e.underlyingSymbol e.expiry e.strike
          e.optionRight = some t
  else e.contractKey = some p.contractKey

/-! ## The query -/

/-- A row of `exec_labeled`, with the execution it comes from. -/
structure LabeledRow where
  accountId : String
  posContractKey : String
  execution : ExecutionRow
  tradeId : Option ℤ
  strategyOpportunityId : Option ℤ
  signedQty : Option ℚ
  deriving DecidableEq

/-- `signed_qty_sql`. -/
def signedQtySql (side : Option String) (quantity : Option ℚ) : Option ℚ :=
  quantity.map fun q =>
    if trimUpper (side.getD "") ∈ ["SELL", "SLD", "S"] then -|q| else |q|

section Query

variable (cast : String → Option Double) (joinsTwsOfFinal : Bool) (db : Books)

/-- The splits of an execution. -/
def Books.splitsOf (e : ExecutionRow) : List FillSplit :=
  db.tradeFillSplits.filter fun a =>
    a.accountExecutionsId = e.accountExecutionsId ∧ a.accountId = e.accountId

/-- The opportunity of a trade. -/
def Books.opportunityOf (tradeId : Option ℤ) : Option ℤ :=
  tradeId.bind fun t =>
    (db.trades.rows.find? fun r => r.tradeId = t).map TradeRow.strategyOpportunityId

/-- The row of a position and an execution that is not split. -/
def Books.wholeRow (p : PositionRow) (e : ExecutionRow) : LabeledRow where
  accountId := p.accountId
  posContractKey := p.contractKey
  execution := e
  tradeId := e.tradeId
  strategyOpportunityId := e.strategyOpportunityId.or (db.opportunityOf e.tradeId)
  signedQty := signedQtySql e.side e.quantity

/-- The row of a position and a split of an execution. -/
def Books.splitRow (p : PositionRow) (e : ExecutionRow) (a : FillSplit) : LabeledRow where
  accountId := p.accountId
  posContractKey := p.contractKey
  execution := e
  tradeId := some a.tradeId
  strategyOpportunityId := (db.opportunityOf (some a.tradeId)).or e.strategyOpportunityId
  signedQty := some a.quantity

/-- The executions without splits among those joined. -/
def Books.wholeRows (p : PositionRow) (es : List ExecutionRow) : List LabeledRow :=
  (es.filter fun e => db.splitsOf e = []).map (db.wholeRow p)

/-- The splits of the executions joined. -/
def Books.splitRows (p : PositionRow) (es : List ExecutionRow) : List LabeledRow :=
  es.flatMap fun e => (db.splitsOf e).map (db.splitRow p e)

/-- The join condition of a position and an execution. -/
def joins (p : PositionRow) (e : ExecutionRow) : Bool :=
  e.accountId = some p.accountId ∧ posExecJoin cast p e = some true

/-- The join of a position and an execution needs a cast that fails. -/
def castFails (p : PositionRow) (e : ExecutionRow) : Bool :=
  e.accountId = some p.accountId ∧ posExecJoin cast p e = none

/-- The arguments that narrow the positions. -/
structure Filter where
  accountId : Option String
  secTypeFilter : Option String

/-- `pos`: the open positions asked for. -/
def Books.pos (f : Filter) : List PositionRow :=
  db.positions.rows.filter fun p =>
    p.position.any (· ≠ 0) ∧
      (strip (textOrEmpty f.accountId) ≠ "" → p.accountId = strip (textOrEmpty f.accountId)) ∧
      (textOrEmpty f.secTypeFilter ≠ "" →
        trimUpper (p.secType.getD "") = upper (strip (textOrEmpty f.secTypeFilter)))

variable (f : Filter)

/-- `pos_has_final`: some final row joins a position of this account and key. -/
def Books.hasFinal (p : PositionRow) : Bool :=
  (db.pos f).any fun q =>
    q.accountId = p.accountId ∧ q.contractKey = p.contractKey ∧
      db.executionsFinal.any (joins cast q)

/-- `exec_labeled`: final or TWS rows, whole or split. -/
def Books.execLabeled : List LabeledRow :=
  let final p := db.executionsFinal.filter (joins cast p)
  let tws p := db.executionsTws.filter (joins cast p)
  let withFinal := (db.pos f).filter fun p => db.hasFinal cast f p
  let withoutFinal := (db.pos f).filter fun p => !db.hasFinal cast f p
  (withFinal.flatMap fun p => db.wholeRows p (final p)) ++
    (withFinal.flatMap fun p => db.splitRows p (final p)) ++
    (withoutFinal.flatMap fun p => db.wholeRows p (tws p)) ++
    withoutFinal.flatMap fun p => db.splitRows p (tws p)

/-- Whether a cast fails on a pair that the query joins. -/
def Books.queryFails : Bool :=
  (db.pos f).any fun p =>
    db.executionsFinal.any (castFails cast p) ∨
      (joinsTwsOfFinal ∨ !db.hasFinal cast f p) ∧ db.executionsTws.any (castFails cast p)

/-- A row of `exec_grouped`. -/
structure GroupedRow where
  tradeId : Option ℤ
  strategyOpportunityId : Option ℤ
  netQtyContribution : Option ℚ
  execCount : ℕ
  deriving DecidableEq

/-- `SUM`: null without a value. -/
def sqlSum (l : List (Option ℚ)) : Option ℚ :=
  if l.reduceOption = [] then none else some l.reduceOption.sum

/-- The order of the trades, nulls last. -/
def nullsLast (t : Option ℤ) : Bool ×ₗ ℤ := toLex (t.isNone, t.getD 0)

/-- The groups of one position, in the order of its trades. -/
def execGrouped (rows : List LabeledRow) : List GroupedRow :=
  (sortedBy (fun g => nullsLast g.1) (groupBy LabeledRow.tradeId rows)).map fun g =>
    { tradeId := g.1
      strategyOpportunityId := (g.2.map LabeledRow.strategyOpportunityId).reduceOption.max?
      netQtyContribution := sqlSum (g.2.map LabeledRow.signedQty)
      execCount := g.2.length }

/-- The labelled rows of a position. -/
def rowsOf (p : PositionRow) (rows : List LabeledRow) : List LabeledRow :=
  rows.filter fun r => r.accountId = p.accountId ∧ r.posContractKey = p.contractKey

/-- A row of the query: a position and a group, or a position without one. -/
structure QueryRow where
  position : PositionRow
  group : Option GroupedRow
  deriving DecidableEq

/-- The rows of the query; `none` where it fails. -/
def Books.queryRows : Option (List QueryRow) :=
  if db.queryFails cast joinsTwsOfFinal f then none
  else
    let labeled := db.execLabeled cast f
    some ((sortedBy (fun p : PositionRow => toLex p.key) (db.pos f)).flatMap fun p =>
      let groups := execGrouped (rowsOf p labeled)
      if groups = [] then [⟨p, none⟩] else groups.map fun g => ⟨p, some g⟩)

/-! ## The result -/

/-- A row of the result. -/
structure ResultRow where
  accountId : String
  contractKey : String
  symbol : String
  secType : String
  expiry : String
  strike : Option ℚ
  optionRight : String
  positionQty : ℚ
  avgCost : Option ℚ
  tradeId : Option ℤ
  strategyOpportunityId : Option ℤ
  openQtyEst : ℚ
  attributionRatio : ℚ
  sourceExecCount : ℕ
  isMixed : Bool
  hasUnassigned : Bool
  deriving DecidableEq

/-- The stripped account and key that a group of rows is built for. -/
def positionId (p : PositionRow) : String × String := (strip p.accountId, strip p.contractKey)

/-- `_make_attribution_row` of a position and a group, or of a position alone. -/
def makeAttributionRow (p : PositionRow) (group : Option GroupedRow) (sumAbs : ℚ)
    (isMixed hasUnassigned : Bool) : ResultRow :=
  let net := (group.bind GroupedRow.netQtyContribution).getD 0
  { accountId := (positionId p).1
    contractKey := (positionId p).2
    symbol := strip (textOrEmpty p.symbol)
    secType := strip (textOrEmpty p.secType)
    expiry := strip (textOrEmpty p.expiry)
    strike := p.strike
    optionRight := strip (textOrEmpty p.optionRight)
    positionQty := p.position.getD 0
    avgCost := p.avgCost
    tradeId := group.bind GroupedRow.tradeId
    strategyOpportunityId := group.bind GroupedRow.strategyOpportunityId
    openQtyEst := if group = none then p.position.getD 0 else roundTo 6 net
    attributionRatio :=
      if group = none then 1 else if 0 < sumAbs then roundTo 6 (|net| / sumAbs) else 0
    sourceExecCount := (group.map GroupedRow.execCount).getD 0
    isMixed
    hasUnassigned }

/-- The result rows of one group of query rows. -/
def buildGroup : List QueryRow → List ResultRow
  | [] => []
  | m :: rows =>
      let groups := ((m :: rows).filterMap QueryRow.group).filter fun g => 0 < g.execCount
      if groups = [] then [makeAttributionRow m.position none 0 false true]
      else
        let sumAbs := (groups.map fun g => |g.netQtyContribution.getD 0|).sum
        let trades := (groups.map GroupedRow.tradeId).dedup
        let hasUnassigned : Bool := none ∈ trades
        let named := trades.reduceOption.length
        let isMixed : Bool := 1 < named ∨ 1 ≤ named ∧ hasUnassigned
        groups.map fun g => makeAttributionRow m.position (some g) sumAbs isMixed hasUnassigned

/-- `_build_attribution_rows`. -/
def buildAttributionRows (rows : List QueryRow) : List ResultRow :=
  (groupBy (fun r => positionId r.position) rows).flatMap fun g => buildGroup g.2

/-- `get_position_instance_attribution`; a query that fails is answered with no rows. -/
def getPositionInstanceAttribution : List ResultRow :=
  ((db.queryRows cast joinsTwsOfFinal f).map buildAttributionRows).getD []

end Query

end Portfolio.Attribution
