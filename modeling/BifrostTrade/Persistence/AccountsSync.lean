import BifrostTrade.Lib.Payload
import BifrostTrade.Lib.Table
import BifrostTrade.Portfolio.ContractKey

/-!
# Accounts sync

`persistence/postgres/accounts_sync.py`: one read of the broker's accounts written to the tables
`account` and `positions`.
-/

namespace Persistence

open Py Portfolio

/-- A `timestamptz`, in microseconds. -/
abbrev Instant := ℤ

/-! ## Tables -/

/-- A row of `brokerage.account`. -/
structure AccountRow where
  accountId : String
  updatedAt : Option Instant
  netLiquidation : Option ℚ
  totalCash : Option ℚ
  buyingPower : Option ℚ
  summaryExtra : Option (List (String × PayloadValue))
  deriving DecidableEq

/-- A row of `brokerage.positions`. -/
structure PositionRow where
  accountId : String
  contractKey : String
  symbol : Option String
  secType : Option String
  exchange : Option String
  currency : Option String
  position : Option ℚ
  avgCost : Option ℚ
  expiry : Option String
  strike : Option ℚ
  optionRight : Option String
  updatedAt : Instant
  deriving DecidableEq

/-- The primary key of `brokerage.positions`. -/
def PositionRow.key (r : PositionRow) : String × String := (r.accountId, r.contractKey)

/-- The two tables that the sync writes. -/
structure Brokerage where
  account : Sql.Table AccountRow.accountId
  positions : Sql.Table PositionRow.key

/-! ## Payload -/

/-- An item of `acc["positions"]`. -/
structure PositionItem where
  symbol : Option String
  secType : Option String
  sec_type : Option String
  exchange : Option String
  currency : Option String
  position : PayloadValue
  avgCost : PayloadValue
  avg_cost : PayloadValue
  lastTradeDateOrContractMonth : Option String
  expiry : Option String
  strike : PayloadValue
  right : Option String

/-- The `positions` of an item: the key is missing, or its value is null, something that is no list,
or a list, with nothing for what is no object in it. -/
inductive PositionsField where
  | missing
  | null
  | other
  | list (items : List (Option PositionItem))

/-- The objects of the list. -/
def PositionsField.items : PositionsField → List PositionItem
  | .list items => items.filterMap id
  | _ => []

/-- Whether the field is a list. -/
def PositionsField.isList : PositionsField → Bool
  | .list _ => true
  | _ => false

/-- An item of the accounts snapshot; one that is no object is one without an account id, and a
summary that is no object is one that is missing. -/
structure AccountItem where
  accountId : Option String
  account : Option String
  summary : Option (List (String × PayloadValue))
  positions : PositionsField
  positionsOk : Option Bool

/-- `a or b or ""`. -/
def firstText (a b : Option String) : String :=
  if textOrEmpty a ≠ "" then textOrEmpty a else textOrEmpty b

/-- `^[A-Z]{1,2}\d+$`; the end may stand before a last newline. -/
def isIbAccountId (s : String) : Bool :=
  let cs := s.toList
  let cs := if cs.getLast? = some '\n' then cs.dropLast else cs
  let isLetter (c : Char) : Bool := 'A' ≤ c ∧ c ≤ 'Z'
  let isNumber (cs : List Char) : Bool := cs ≠ [] ∧ cs.all isDecimal
  match cs with
  | a :: b :: cs => isLetter a ∧ (isNumber (b :: cs) ∨ isLetter b ∧ isNumber cs)
  | _ => false

/-- The account an item is written under; `none` where the item is skipped. -/
def AccountItem.validAccountId (acc : AccountItem) : Option String :=
  let accountId := strip (firstText acc.accountId acc.account)
  if isIbAccountId accountId then some accountId else none

/-- What `_parse_summary_floats` returns. -/
structure SummaryFloats where
  netLiq : Option ℚ
  totalCash : Option ℚ
  buyingPower : Option ℚ
  summaryExtra : List (String × PayloadValue)

/-- The loop of `_parse_summary_floats` for one item. -/
def parseSummaryItem (s : SummaryFloats) (item : String × PayloadValue) : SummaryFloats :=
  match item.2.finite with
  | none => s
  | some f =>
      let extra := s.summaryExtra.filter fun e => e.1 ≠ item.1
      if item.1 = "NetLiquidation" then { s with netLiq := some f, summaryExtra := extra }
      else if item.1 = "TotalCashValue" then { s with totalCash := some f, summaryExtra := extra }
      else if item.1 = "BuyingPower" then { s with buyingPower := some f, summaryExtra := extra }
      else s

/-- `_parse_summary_floats`. -/
def parseSummaryFloats (summary : List (String × PayloadValue)) : SummaryFloats :=
  summary.foldl parseSummaryItem ⟨none, none, none, summary⟩

/-- `_json_safe` of one value: floats that are not finite become null.  What is inside a list or an
object is not modelled. -/
def jsonSafe : PayloadValue → PayloadValue
  | .float x => if x.isFinite then .float x else .null
  | v => v

/-! ## Writing -/

/-- The upsert of an account's row at the time `now`. -/
def upsertAccount (now : Instant) (accountId : String) (s : SummaryFloats)
    (t : Sql.Table AccountRow.accountId) : Sql.Table AccountRow.accountId :=
  let extra := if s.summaryExtra = [] then none
    else some (s.summaryExtra.map fun e => (e.1, jsonSafe e.2))
  t.upsert ⟨accountId, some now, s.netLiq, s.totalCash, s.buyingPower, extra⟩
    (fun old =>
      { old with
        updatedAt := some now
        netLiquidation := s.netLiq.or old.netLiquidation
        totalCash := s.totalCash.or old.totalCash
        buyingPower := s.buyingPower.or old.buyingPower
        summaryExtra := if s.netLiq = none then old.summaryExtra else extra })
    fun _ => rfl

/-- `p.get("avgCost") or p.get("avg_cost")`. -/
def PositionItem.avg (p : PositionItem) : PayloadValue :=
  if p.avgCost.truthy then p.avgCost else p.avg_cost

/-- `sec`. -/
def PositionItem.sec (p : PositionItem) : String := firstText p.secType p.sec_type

/-- `contract_key`. -/
def PositionItem.contractKey (p : PositionItem) : String :=
  let sym := textOrEmpty p.symbol
  let exp := firstText p.lastTradeDateOrContractMonth p.expiry
  if p.sec = "OPT" then optKey sym exp p.strike.finite (textOrEmpty p.right) "None"
  else stkKey sym p.sec

/-- The row an item of the position list is written as. -/
def positionRow (now : Instant) (accountId : String) (p : PositionItem) : PositionRow :=
  let exp := firstText p.lastTradeDateOrContractMonth p.expiry
  let right := textOrEmpty p.right
  { accountId
    contractKey := p.contractKey
    symbol := some (textOrEmpty p.symbol)
    secType := some p.sec
    exchange := some (textOrEmpty p.exchange)
    currency := some (textOrEmpty p.currency)
    position := p.position.finite
    avgCost := p.avg.finite
    expiry := if exp = "" then none else some exp
    strike := p.strike.finite
    optionRight := if right = "" then none else some right
    updatedAt := now }

/-- `float()` of a number of the item raises `OverflowError`. -/
def PositionItem.overflows (p : PositionItem) : Bool :=
  p.position.tooLarge ∨ p.avg.tooLarge ∨ p.strike.tooLarge

/-- The upsert of one position; symbol and security type stay as first written. -/
def upsertPosition (t : Sql.Table PositionRow.key) (r : PositionRow) : Sql.Table PositionRow.key :=
  t.upsert r
    (fun old =>
      { old with
        exchange := r.exchange
        currency := r.currency
        position := r.position
        avgCost := r.avgCost
        expiry := r.expiry
        strike := r.strike
        optionRight := r.optionRight
        updatedAt := r.updatedAt })
    fun _ => rfl

/-- The account's positions become the list: upserts, then the rows not in it are deleted. -/
def replacePositions (now : Instant) (accountId : String) (items : List PositionItem)
    (t : Sql.Table PositionRow.key) : Sql.Table PositionRow.key :=
  let rows := items.map (positionRow now accountId)
  let seenKeys := rows.map PositionRow.contractKey
  (rows.foldl upsertPosition t).delete fun r => r.accountId = accountId ∧ r.contractKey ∉ seenKeys

/-- The item carries a position list that was successfully read. -/
def AccountItem.positionsRead (acc : AccountItem) : Bool :=
  acc.positions.isList ∧ acc.positionsOk ≠ some false

/-- The sync replaces the account's positions by what the item carries. -/
def AccountItem.replacesPositions (acc : AccountItem) : Bool :=
  !(acc.positions matches .missing) ∧ acc.positionsOk ≠ some false

/-- The item carries a net liquidation value the sync can read. -/
def AccountItem.navRead (acc : AccountItem) : Bool :=
  (parseSummaryFloats (acc.summary.getD [])).netLiq.isSome

/-- `float()` of a number that the sync converts raises `OverflowError`, which it does not catch. -/
def AccountItem.overflows (acc : AccountItem) : Bool :=
  ((acc.summary.getD []).any fun e => e.2.tooLarge) ∨
    acc.replacesPositions ∧ acc.positions.items.any PositionItem.overflows

/-- The writes of one item, under its account. -/
def writeAccount (now : Instant) (db : Brokerage) (acc : AccountItem) (accountId : String) :
    Brokerage :=
  let s := parseSummaryFloats (acc.summary.getD [])
  let account := upsertAccount now accountId s db.account
  -- a missing or failed read is not an empty book: the stored positions stay
  if acc.replacesPositions then
    { account
      positions := replacePositions now accountId acc.positions.items db.positions }
  else { db with account }

/-- One item of the snapshot; `none` where it raises. -/
def syncAccount (now : Instant) (db : Brokerage) (acc : AccountItem) : Option Brokerage :=
  match acc.validAccountId with
  | none => some db
  | some accountId => if acc.overflows then none else some (writeAccount now db acc accountId)

/-- `sync_accounts_snapshot_to_tables`, in a transaction that began at `now`; `none` where it
raises, and the transaction is rolled back. -/
def syncAccountsSnapshotToTables (now : Instant) (db : Brokerage)
    (accountsList : Option (List AccountItem)) : Option Brokerage :=
  (accountsList.getD []).foldlM (syncAccount now) db

/-! ## A sync that ends -/

variable {now : Instant} {db db' : Brokerage} {items : List AccountItem}

/-- The writes of one item, where it does not raise. -/
def writeItem (now : Instant) (db : Brokerage) (acc : AccountItem) : Brokerage :=
  match acc.validAccountId with
  | none => db
  | some accountId => writeAccount now db acc accountId

theorem syncAccount_eq (acc : AccountItem) :
    syncAccount now db acc =
      if acc.validAccountId.isSome ∧ acc.overflows then none else some (writeItem now db acc) := by
  unfold syncAccount writeItem
  cases acc.validAccountId with
  | none => simp
  | some a => simp

/-- The sync ends where no item raises, and has then made the writes of each. -/
theorem syncAccounts_eq_some_iff : syncAccountsSnapshotToTables now db (some items) = some db' ↔
    (∀ acc ∈ items, acc.validAccountId.isSome → acc.overflows = false) ∧
      items.foldl (writeItem now) db = db' := by
  rw [syncAccountsSnapshotToTables, Option.getD_some]
  induction items generalizing db with
  | nil => simp
  | cons acc items ih =>
    rw [List.foldlM_cons, syncAccount_eq, List.forall_mem_cons, List.foldl_cons]
    by_cases hraises : acc.validAccountId.isSome ∧ acc.overflows
    · simp [hraises]
    · rw [if_neg hraises]
      refine ih.trans (and_congr_left' (iff_and_self.2 fun _ hvalid => ?_))
      simpa [hvalid] using hraises

end Persistence
