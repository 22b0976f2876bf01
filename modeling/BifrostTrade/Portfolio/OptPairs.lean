import BifrostTrade.Lib.Calendar
import BifrostTrade.Lib.FifoMatching
import BifrostTrade.Lib.Python
import BifrostTrade.Lib.Text

/-!
# Pairing option executions

`_compute_opt_pair_map_and_pairs` of `portfolio/reader/accounts_helpers.py`: the option executions
are grouped by symbol, expiry, strike and account, each group is sorted, and its buys and sells
are paired first in, first out by a loop that starts over after every pair.
-/

namespace Portfolio

open Py FifoMatching

/-! ## Executions -/

/-- `trade_date`: a date, or the text of one. -/
inductive TradeDate where
  | date (d : Date)
  | text (s : String)
  deriving DecidableEq, Repr

/-- The columns of an execution row that the pairing and the calendars read. -/
structure Execution where
  accountExecutionsId : Option ℤ
  id : Option ℤ := none
  accountId : Option String
  symbol : Option String
  secType : Option String
  side : Option String
  quantity : Option Double
  price : Option Double
  commission : Option Double
  realizedPnl : Option Double := none
  expiry : Option String
  strike : Option Double
  optionRight : Option String
  tradeDate : Option TradeDate
  time : Option ℚ
  deriving DecidableEq, Repr

namespace Execution

/-- `account_executions_id`, or the legacy `id`. -/
def execId (e : Execution) : Option ℤ := e.accountExecutionsId.or e.id

/-- `(sec_type or "").strip().upper()`. -/
def secTypeText (e : Execution) : String := upper (strip (textOrEmpty e.secType))

/-- The execution is an option's. -/
def isOpt (e : Execution) : Prop := e.secTypeText = "OPT"

instance (e : Execution) : Decidable e.isOpt := inferInstanceAs (Decidable (_ = _))

end Execution

/-! ## Normalising the fields of the group key -/

/-- `_norm_option_right`. -/
def normOptionRight (r : Option String) : String :=
  match r with
  | none => ""
  | some r =>
      let s := upper (strip r)
      if s = "C" ∨ s = "CALL" then "C" else if s = "P" ∨ s = "PUT" then "P" else s

/-- The text `_norm_strike` makes of a strike: empty, of an integer, or of any other float. -/
inductive StrikeText where
  | empty
  | int (n : ℤ)
  | float (x : Double)
  deriving DecidableEq, Repr

/-- `_norm_strike`. -/
def normStrike (s : Option Double) : StrikeText :=
  match s with
  | none => .empty
  | some (.fin x) => if x = ⌊x⌋ then .int ⌊x⌋ else .float (.fin x)
  | some x => .float x

/-- `_norm_side`. -/
def normSide (s : Option String) : String :=
  match s with
  | none => "BUY"
  | some s =>
      let raw := upper (strip s)
      if raw ∈ ["BOT", "BUY", "B"] then "BUY"
      else if raw ∈ ["SLD", "SELL", "S"] then "SELL"
      else if raw = "" then "BUY" else raw

/-- The digits of an expiry. -/
def normExpiry (s : Option String) : String :=
  match s with
  | none => ""
  | some s => String.ofList (s.toList.filter isDigit)

/-- The side of an execution that is a buy or a sell. -/
def sideOf (e : Execution) : Option Side :=
  let side := normSide e.side
  if side = "BUY" then some .buy else if side = "SELL" then some .sell else none

/-- What the executions of a group share. -/
structure GroupKey where
  symbol : String
  expiry : String
  strike : StrikeText
  accountId : String
  deriving DecidableEq, Repr

/-- The group of an execution. -/
def groupKey (e : Execution) : GroupKey where
  symbol := strip (textOrEmpty e.symbol)
  expiry := normExpiry e.expiry
  strike := normStrike e.strike
  accountId := strip (textOrEmpty e.accountId)

/-! ## Sort order -/

section Pairing

-- the calendar date in Chicago of a Unix time, `none` when the conversion fails
variable (chicago : ℚ → Option Date)

/-- The Chicago date of the execution's time, as text. -/
def timeDateStr (e : Execution) : String :=
  match e.time.bind chicago with
  | some d => d.isoformat
  | none => ""

/-- `trade_date` when it is a date or reads as one, else the Chicago date of the time. -/
def executionDateStrForFifo (e : Execution) : String :=
  match e.tradeDate with
  | some (.date d) => d.isoformat
  | some (.text s) =>
      let cs := (strip s).toList
      if 10 ≤ cs.length ∧ cs[4]? = some '-' ∧ cs[7]? = some '-' then String.ofList (cs.take 10)
      else timeDateStr chicago e
  | none => timeDateStr chicago e

/-- `_fifo_sort_key`: date, time, id. -/
def fifoSortKey (e : Execution) : String ×ₗ ℚ ×ₗ ℤ :=
  toLex (executionDateStrForFifo chicago e, toLex (e.time.getD 0, e.execId.getD 0))

/-! ## The legs of one group -/

/-- What a work entry refers to: the execution, and its place in the group. -/
structure Leg where
  pos : ℕ
  exec : Execution
  eid : ℤ
  price : ℚ
  deriving DecidableEq, Repr

/-- `abs(float(x))` when that is finite. -/
def finiteAbs : Double → Option ℚ
  | .fin x => some |x|
  | _ => none

/-- `x` when it is finite. -/
def finiteValue : Double → Option ℚ
  | .fin x => some x
  | _ => none

/-- The work entry of an execution: none without a side, an id, a finite price or a finite
positive quantity. -/
def workEntry (pos : ℕ) (x : Execution) : Option (Lot Leg ℚ) := do
  let side ← sideOf x
  let q ← finiteAbs (x.quantity.getD (.fin 0))
  let p ← finiteValue (x.price.getD (.fin 0))
  let c := (x.commission.bind finiteValue).getD 0
  let eid ← x.execId
  if q ≤ 0 then none else some ⟨⟨pos, x, eid, p⟩, side, q, c⟩

/-- The work list of a group, in sort order. -/
def groupWork (group : List Execution) : List (Lot Leg ℚ) :=
  (sortedBy (fifoSortKey chicago) group).zipIdx.filterMap fun x => workEntry x.2 x.1

/-! ## The loop -/

/-- `_QTY_EPS`. -/
def qtyEps : ℚ := 1 / 10 ^ 9

/-- One pair a round over the work list, until a round finds none. -/
def groupMatches (group : List Execution) : List (Match Leg ℚ) :=
  let work := groupWork chicago group
  match restartLoop qtyEps (work.length + 1) work with
  | some (pairs, _) => pairs
  | none => []

/-- The option executions with a side, by group key. -/
def optGroups (executions : List Execution) : List (GroupKey × List Execution) :=
  groupBy groupKey
    (executions.filter fun e => e.isOpt ∧ e.execId.isSome ∧ (sideOf e).isSome)

/-- The pairs of all groups, before they are rounded and written out. -/
def optMatches (executions : List Execution) : List (GroupKey × Match Leg ℚ) :=
  (optGroups executions).flatMap fun g => (groupMatches chicago g.2).map fun m => (g.1, m)

/-! ## What is returned -/

/-- One pair of the result; `c` is the opening leg and `p` the closing one. -/
structure OptPair where
  legCExecutionId : ℤ
  legPExecutionId : ℤ
  symbol : String
  expiry : String
  strike : StrikeText
  accountId : String
  quantity : ℚ
  cSide : Side
  cPrice : ℚ
  pSide : Side
  pPrice : ℚ
  commission : ℚ
  netPnl : ℚ
  deriving DecidableEq, Repr

/-- Cash of one leg of a pair: a buy pays, a sell receives, both pay their commission. -/
def legCash (side : Side) (q price comm : ℚ) : ℚ :=
  match side with
  | .buy => -1 * q * price * 100 - comm
  | .sell => 1 * q * price * 100 - comm

/-- The entry of a match in the list of pairs. -/
def toOptPair (key : GroupKey) (m : Match Leg ℚ) : OptPair where
  legCExecutionId := m.opening.eid
  legPExecutionId := m.closing.eid
  symbol := key.symbol
  expiry := key.expiry
  strike := key.strike
  accountId := key.accountId
  quantity := roundTo 4 m.qty
  cSide := m.openingSide
  cPrice := roundTo 4 m.opening.price
  pSide := m.closingSide
  pPrice := roundTo 4 m.closing.price
  commission := roundTo 2 (m.openingComm + m.closingComm)
  netPnl := roundTo 2 (legCash m.openingSide m.qty m.opening.price m.openingComm +
    legCash m.closingSide m.qty m.closing.price m.closingComm)

/-- `pair_map[a].append(b)`, once. -/
def addPartner (pairMap : List (ℤ × List ℤ)) (a b : ℤ) : List (ℤ × List ℤ) :=
  if a ∈ pairMap.map Prod.fst then
    pairMap.map fun x => if x.1 = a ∧ b ∉ x.2 then (x.1, x.2 ++ [b]) else x
  else pairMap ++ [(a, [b])]

/-- The partners of a match, each under the other. -/
def addPair (pairMap : List (ℤ × List ℤ)) (aid bid : ℤ) : List (ℤ × List ℤ) :=
  addPartner (addPartner pairMap aid bid) bid aid

/-- The partners by execution id, and the pairs. -/
def computeOptPairMapAndPairs (executions : List Execution) :
    List (ℤ × List ℤ) × List OptPair :=
  let found := optMatches chicago executions
  (found.foldl (fun pm km => addPair pm km.2.opening.eid km.2.closing.eid) [],
    found.map fun km => toOptPair km.1 km.2)

end Pairing

end Portfolio
