import BifrostTrade.Portfolio.InstanceNetPnl
import BifrostTrade.Portfolio.PositionAttribution
import BifrostTrade.Portfolio.SnapshotEnrich

/-!
# The state of an instance

`monitor/reader/instance_state.py`: the option fills attributed to a trade, one leg for each
contract key, and the state that the legs are in.  The keys are those of
`portfolio/contract_key.py`, as the two writers of executions store them.  A symbol slot of a TWS
key is not that of another source's key, so the legs are those of the contracts only where the
keys tell the contracts apart.

The date of a time in New York is the parameter `newYorkDate`.
-/

namespace Portfolio.InstanceState

open Py Persistence
open Snapshot (rightLetter strikeDigits)
open Attribution (trimUpper underlyingSymbolFromRow)

/-! ## Executions -/

/-- A row of `brokerage.executions`, as far as its key and its leg are made from it. -/
structure ExecutionRow where
  accountId : Option String
  execId : Option String
  symbol : Option String
  underlyingSymbol : Option String
  secType : Option String
  side : Option String
  quantity : Option ℚ
  source : Option String
  expiry : Option String
  strike : Option ℚ
  optionRight : Option String
  contractKey : Option String
  tradeDate : Option Date
  execTime : Option Instant
  deriving DecidableEq

/-! ## Keys of executions -/

/-- The parts of an option's key. -/
@[ext]
structure OptFields where
  symKey : String
  expKey : String
  strikeKey : Option ℚ
  rightKey : String
  deriving DecidableEq

/-- `replace(s, '-', '')`. -/
def dropDashes (s : String) : String := String.ofList (s.toList.filter (· ≠ '-'))

/-- `execution_opt_fields`, on the parts as the columns have them. -/
def executionOptFields (symbol expiry : Option String) (strike : Option ℚ)
    (optionRight : Option String) : OptFields :=
  let rightKey := upper (strip (textOrEmpty optionRight))
  { symKey := strip (textOrEmpty symbol)
    expKey := dropDashes (strip (textOrEmpty expiry))
    strikeKey := strike
    rightKey :=
      if 1 < rightKey.toList.length then
        if rightKey.toList.head? = some 'C' then "C"
        else if rightKey.toList.head? = some 'P' then "P"
        else String.ofList (rightKey.toList.take 1)
      else rightKey }

/-- `legacy_tws_local_symbol`: two spaces after the symbol, whatever its length. -/
def legacyTwsLocalSymbol (symKey expKey : String) (strikeKey : ℚ) (rightKey : String) :
    Option String :=
  let digits := expKey.toList.filter isDigit
  let yymmdd :=
    if 8 ≤ digits.length then (digits.take 8).drop 2 else digits.drop (digits.length - 6)
  if yymmdd = [] then none
  else some (symKey ++ "  " ++ String.ofList yymmdd ++ rightKey ++
    strikeDigits (Py.round (strikeKey * 1000)))

/-- The key of a TWS row with these parts, where none is missing. -/
def OptFields.twsKey (f : OptFields) : Option String :=
  if f.symKey = "" ∨ f.expKey = "" ∨ f.rightKey = "" then none
  else f.strikeKey.bind fun k =>
    (legacyTwsLocalSymbol f.symKey f.expKey k f.rightKey).map fun localSymbol =>
      optKey localSymbol f.expKey (some k) f.rightKey ""

/-- `tws_execution_opt_key`. -/
def twsExecutionOptKey (symbol expiry : Option String) (strike : Option ℚ)
    (optionRight : Option String) : Option String :=
  (executionOptFields symbol expiry strike optionRight).twsKey

/-- `TWS_SOURCES`. -/
def twsSources : List String := ["tws_event", "tws_client"]

/-- The parts of the row's key. -/
def ExecutionRow.optFields (r : ExecutionRow) : OptFields :=
  executionOptFields r.symbol r.expiry r.strike r.optionRight

/-- The key of the row as one of TWS. -/
def ExecutionRow.twsKey (r : ExecutionRow) : Option String :=
  twsExecutionOptKey r.symbol r.expiry r.strike r.optionRight

/-- The key of the sources other than TWS. -/
def ExecutionRow.plainKey (r : ExecutionRow) : String :=
  optKey r.optFields.symKey r.optFields.expKey r.optFields.strikeKey r.optFields.rightKey ""

/-- The key under which `write_account_executions_to_db` stores a row. -/
def ExecutionRow.writtenKey (r : ExecutionRow) : Option String :=
  if upper (strip (textOrEmpty r.secType)) = "OPT" ∧ strip (textOrEmpty r.source) ∈ twsSources then
    r.twsKey.or r.contractKey
  else r.contractKey

/-- The key under which the daemon's `write_account_executions` stores a row: without a key of
its own a row gets the plain one. -/
def ExecutionRow.sinkKey (r : ExecutionRow) : Option String :=
  if upper (strip (textOrEmpty r.secType)) = "OPT" ∧ textOrEmpty r.writtenKey = "" ∧
      r.optFields.symKey ≠ "" then some r.plainKey
  else r.writtenKey

/-- A row stored under a key. -/
def ExecutionRow.keyed (r : ExecutionRow) (key : Option String) : ExecutionRow :=
  { r with contractKey := key }

example : twsExecutionOptKey (some " RKLB ") (some "2026-03-20") (some 80) (some "call") =
    some "RKLB  260320C00080000|OPT|20260320|80.0|C" := by decide +kernel

/-! ## The executions view -/

/-- The raw executions and the attributions to trades. -/
structure Books where
  flex : List ExecutionRow
  tws : List ExecutionRow
  journal : List ExecutionRow
  tradeExecution : List TradeExecutionRow

/-- `brokerage.executions`: a TWS row stands until Flex has its execution id. -/
def Books.executions (b : Books) : List ExecutionRow :=
  b.flex ++
    (b.tws.filter fun t => ¬ ∃ f ∈ b.flex, f.execId = t.execId ∧ textOrEmpty f.execId ≠ "") ++
    b.journal

/-- An execution attributed to a trade, whole or a share of it. -/
structure AttributedFill where
  attribution : TradeExecutionRow
  row : ExecutionRow
  deriving DecidableEq

namespace AttributedFill

/-- The trade that the fill is attributed to. -/
def tradeId (f : AttributedFill) : ℤ := f.attribution.tradeId

/-- One for a buy, minus one for a sale. -/
def sign (f : AttributedFill) : ℚ :=
  let side := trimUpper (textOrEmpty f.row.side)
  if side ∈ buySides then 1 else if side ∈ sellSides then -1 else 0

/-- The quantity of the share, else of the fill, with the sign of its side. -/
def signedQty (f : AttributedFill) : ℚ :=
  f.sign * |(f.attribution.splitQuantity.or f.row.quantity).getD 0|

/-- The day of the fill. -/
def fillOn (newYorkDate : Instant → Date) (f : AttributedFill) : Option Date :=
  f.row.tradeDate.or (f.row.execTime.map newYorkDate)

end AttributedFill

/-- `x::text` of a double in the database: its shortest decimal, with no point in a whole number and
an exponent from fifteen digits on. -/
def doubleText (x : ℚ) : String :=
  let d := shortDecimal |x|
  let ds := d.digitChars
  let place := d.place
  let pointed (whole frac : List Char) : List Char :=
    whole ++ if frac = [] then [] else '.' :: frac
  let text :=
    if 0 ≤ place ∧ place < 15 then
      let whole := ds.take (place.toNat + 1)
      pointed (whole ++ List.replicate (place.toNat + 1 - whole.length) '0')
        (ds.drop (place.toNat + 1))
    else if -4 ≤ place ∧ place < 0 then
      '0' :: '.' :: List.replicate (-place - 1).toNat '0' ++ ds
    else
      pointed (ds.take 1) (ds.drop 1) ++
        'e' :: (if place < 0 then '-' else '+') :: natText 2 place.natAbs
  if x = 0 then "0" else String.ofList ((if x < 0 then ['-'] else []) ++ text)

example : doubleText 80 = "80" ∧ doubleText (165 / 2) = "82.5" := by decide +kernel

/-- The key that the query spells for a row without one. -/
def ExecutionRow.spelledKey (r : ExecutionRow) : String :=
  let right := textOrEmpty r.optionRight
  String.ofList ((textOrEmpty r.symbol).toList.takeWhile (· ≠ ' ')) ++ "|OPT|" ++
    dropDashes (textOrEmpty r.expiry) ++ "|" ++ doubleText (r.strike.getD 0) ++ "|" ++
    upper (String.ofList ((if right = "" then "C" else right).toList.take 1))

/-- The key that a row is grouped by: the stored one, where that is not blank. -/
def ExecutionRow.legKey (r : ExecutionRow) : String :=
  let stored := trimSpaces (textOrEmpty r.contractKey)
  if stored = "" then r.spelledKey else stored

/-! ## Legs -/

/-- A leg: a contract key with what is held of it and its last fill. -/
structure InstanceLeg where
  contractKey : String
  expiry : Option Date
  netQty : ℚ
  lastFillOn : Option Date
  deriving DecidableEq

/-- The leg is not flat. -/
def InstanceLeg.isOpen (leg : InstanceLeg) : Bool := netQtyEps ≤ |leg.netQty|

/-- `parse_expiry`: the first eight digits as a date. -/
def parseExpiry (raw : Option String) : Option Date :=
  let digits := (textOrEmpty raw).toList.filter isDigit
  let number (ds : List Char) : Option ℕ := (ds.mapM decimalValue).map digitsValue
  if digits.length < 8 then none
  else
    match number (digits.take 4), number ((digits.drop 4).take 2), number ((digits.drop 6).take 2)
    with
    | some year, some month, some day => Date.ofYmd year month day
    | _, _, _ => none

example : parseExpiry (some "2026-10-16") = Date.ofYmd 2026 10 16 ∧
    parseExpiry (some "202610") = none := by decide +kernel

/-- `%(ids)s IS NULL OR trade_id = ANY(%(ids)s)`; no ids are `NULL`. -/
def isWanted (tradeIds : Option (List ℤ)) (tradeId : ℤ) : Bool :=
  tradeIds.getD [] = [] ∨ tradeId ∈ tradeIds.getD []

/-- The attributed option fills: the attributions joined to the view. -/
def Books.fills (b : Books) (tradeIds : Option (List ℤ)) : List AttributedFill :=
  (b.tradeExecution.flatMap fun x =>
    (b.executions.filter fun e => e.accountId = some x.accountId ∧ e.execId = some x.execId).map
      fun e => ⟨x, e⟩).filter
    fun f => trimUpper (textOrEmpty f.row.secType) = "OPT" ∧ isWanted tradeIds f.tradeId

/-- The leg of the fills of one key. -/
def instanceLeg (newYorkDate : Instant → Date) (key : String) (fills : List AttributedFill) :
    InstanceLeg where
  contractKey := key
  expiry := parseExpiry (fills.filterMap fun f => f.row.expiry).min?
  netQty := (fills.map AttributedFill.signedQty).sum
  lastFillOn := (fills.filterMap fun f => f.fillOn newYorkDate).max?

/-- `read_instance_legs`. -/
def readInstanceLegs (newYorkDate : Instant → Date) (b : Books) (tradeIds : Option (List ℤ)) :
    List (ℤ × List InstanceLeg) :=
  let rows := (groupBy (fun f => (f.tradeId, f.row.legKey)) (b.fills tradeIds)).map fun g =>
    (g.1.1, instanceLeg newYorkDate g.1.2 g.2)
  (groupBy Prod.fst rows).map fun g => (g.1, g.2.map Prod.snd)

/-! ## States -/

/-- The state of an instance. -/
inductive State where
  | noFills
  | open
  | expired
  | closed
  deriving DecidableEq, Repr

/-- `derive_state`: the state of the legs, and the day it closed on. -/
def deriveState (legs : List InstanceLeg) (today : Date) : State × Option Date :=
  if legs = [] then (.noFills, none)
  else
    let openLegs := legs.filter InstanceLeg.isOpen
    if openLegs = [] then (.closed, (legs.filterMap InstanceLeg.lastFillOn).max?)
    else if ∀ leg ∈ openLegs, ∃ e ∈ leg.expiry, e < today then
      (.expired, (openLegs.filterMap InstanceLeg.expiry).max?)
    else (.open, none)

/-- `instance_states`, at a given day. -/
def instanceStates (newYorkDate : Instant → Date) (b : Books) (tradeIds : List ℤ) (today : Date) :
    List (ℤ × State × Option Date) :=
  let legs := readInstanceLegs newYorkDate b (some tradeIds)
  (firstSeen tradeIds).map fun t => (t, deriveState ((legs.lookup t).getD []) today)

end Portfolio.InstanceState
