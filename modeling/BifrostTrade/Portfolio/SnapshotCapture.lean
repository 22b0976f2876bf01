import BifrostTrade.Lib.Calendar
import BifrostTrade.Lib.Rollup
import BifrostTrade.Persistence.AccountsSync

/-!
# Snapshot capture

`portfolio/snapshot/daily.py`: the session's close, the snapshot rows of an attribution, and the
capture of the accounts that are fresh.
-/

namespace Portfolio.Snapshot

open Py Persistence

/-! ## The session's close -/

/-- A row of `market.us_market_holiday`. -/
structure Holiday where
  holidayDate : Date
  exchange : String
  status : String
  closeTime : Option Instant

/-- What the database knows of the market's calendar: 16:00 New York of a date, and the holiday
table where it can be read. -/
structure MarketCalendar where
  newYork1600 : Date → Instant
  holidays : Option (List Holiday)

/-- `session_close_at`. -/
def MarketCalendar.sessionCloseAt (cal : MarketCalendar) (d : Date) : Instant :=
  let early := ((cal.holidays.getD []).filter fun h =>
    h.holidayDate = d ∧ upper h.exchange = "NYSE" ∧ lower h.status = "early-close").filterMap
      Holiday.closeTime
  early.min?.getD (cal.newYork1600 d)

/-! ## Snapshot rows -/

/-- What `split_rows` reads of a row of the position attribution. -/
structure AttributionRow where
  accountId : Option String
  contractKey : Option String
  tradeId : Option ℤ
  symbol : Option String
  secType : Option String
  expiry : Option String
  strike : Value
  optionRight : Option String
  positionQty : Value
  openQtyEst : Value
  avgCost : Value
  markSource : Option String
  priceLast : Value
  priceMid : Value

/-- A row `split_rows` returns. -/
structure SplitRow where
  accountId : String
  contractKey : String
  symbol : Option String
  secType : Option String
  expiry : Option Date
  strike : Option ℚ
  optionRight : Option String
  positionQty : ℚ
  avgCost : Option ℚ
  tradeId : Option ℤ
  tradeQty : ℚ
  mark : Option ℚ
  markSource : Option String
  deriving DecidableEq

/-- Below this a split remainder is float noise, not an unattributed position. -/
def qtyEps : ℚ := 1 / 1000000

/-- `MARK_QUOTE_LIVE`. -/
def markQuoteLive : String := "quote_live"

/-- `s or None`. -/
def textOrNone (s : String) : Option String := if s = "" then none else some s

/-- `parse_expiry`: the first eight digits as a date. -/
def parseExpiry (value : Option String) : Option Date :=
  let digits := (textOrEmpty value).toList.filterMap decimalValue
  if digits.length < 8 then none
  else Date.ofYmd (digitsValue (digits.take 4)) (digitsValue ((digits.drop 4).take 2))
    (digitsValue ((digits.drop 6).take 2))

/-- The position a row of the attribution belongs to. -/
def AttributionRow.position (r : AttributionRow) : String × String :=
  (strip (textOrEmpty r.accountId), strip (textOrEmpty r.contractKey))

/-- The live quote as the capture's mark: the last price, else the mid, when positive. -/
def liveMark (m : AttributionRow) : Option ℚ :=
  let positive (p : Option ℚ) : Option ℚ := p.filter fun x => 0 < x
  if m.markSource = some markQuoteLive then
    (positive m.priceLast.finite).or (positive m.priceMid.finite)
  else none

section Split

-- the rounding of each sum: that to the nearest double, or none in exact arithmetic
variable (rnd : ℚ → ℚ)

/-- The net quantity of each trade of a position, noise left out. -/
def perTrade (group : List AttributionRow) : List (ℤ × ℚ) :=
  let qtys := group.filterMap fun r => r.tradeId.map fun t => (t, r.openQtyEst.finite.getD 0)
  let sums := (groupBy Prod.fst qtys).map fun g => (g.1, sumWith rnd (g.2.map Prod.snd))
  sums.filter fun s => qtyEps < |s.2|

/-- The trades' quantities in the order of the trades, and what they leave of the position. -/
def shares (positionQty : ℚ) (group : List AttributionRow) : List (Option ℤ × ℚ) :=
  let trades := perTrade rnd group
  let remainder := rnd (positionQty - sumWith rnd (trades.map Prod.snd))
  (sortedBy Prod.fst trades).map (fun s => (some s.1, s.2)) ++
    if qtyEps < |remainder| ∨ trades = [] then
      [(none, if trades = [] then positionQty else remainder)]
    else []

/-- The snapshot rows of one position. -/
def positionRows (position : String × String) (group : List AttributionRow) : List SplitRow :=
  match group with
  | [] => []
  | m :: _ =>
      let positionQty := m.positionQty.finite.getD 0
      let mark := liveMark m
      (shares rnd positionQty group).map fun s =>
        { accountId := position.1
          contractKey := position.2
          symbol := textOrNone (strip (textOrEmpty m.symbol))
          secType := textOrNone (upper (strip (textOrEmpty m.secType)))
          expiry := parseExpiry m.expiry
          strike := m.strike.finite
          optionRight := textOrNone (upper (strip (textOrEmpty m.optionRight)))
          positionQty
          avgCost := m.avgCost.finite
          tradeId := s.1
          tradeQty := rnd (roundTo 6 s.2)
          mark
          markSource := mark.map fun _ => markQuoteLive }

/-- `split_rows`. -/
def splitRows (attribution : List AttributionRow) : List SplitRow :=
  let named := attribution.filter fun r => r.position.1 ≠ "" ∧ r.position.2 ≠ ""
  (groupBy AttributionRow.position named).flatMap fun g => positionRows rnd g.1 g.2

end Split

/-! ## Capture -/

/-- A row of `account_nav_daily`. -/
structure NavRow where
  snapshotDate : Date
  accountId : String
  netLiquidation : Option ℚ
  totalCash : Option ℚ
  buyingPower : Option ℚ
  cushion : Option ℚ
  excessLiquidity : Option ℚ
  maintMarginReq : Option ℚ
  accountUpdatedAt : Option Instant
  deriving DecidableEq

/-- The key of `account_nav_daily_uq`. -/
def NavRow.key (r : NavRow) : Date × String := (r.snapshotDate, r.accountId)

/-- The columns of `position_snapshot_daily` that a capture leaves empty. -/
structure VendorValues where
  underlyingClose : Option ℚ
  delta : Option ℚ
  gamma : Option ℚ
  vega : Option ℚ
  theta : Option ℚ
  iv : Option ℚ
  greeksAsof : Option Instant
  deriving DecidableEq

/-- All of them null. -/
def VendorValues.empty : VendorValues := ⟨none, none, none, none, none, none, none⟩

/-- A row of `position_snapshot_daily`. -/
structure PositionSnapshotRow where
  snapshotDate : Date
  row : SplitRow
  positionsUpdatedAt : Option Instant
  vendor : VendorValues
  deriving DecidableEq

/-- The key of `position_snapshot_daily_uq`; two rows without a trade conflict. -/
def PositionSnapshotRow.key (r : PositionSnapshotRow) : Date × String × String × Option ℤ :=
  (r.snapshotDate, r.row.accountId, r.row.contractKey, r.row.tradeId)

/-- The two tables of snapshots. -/
structure Snapshots where
  accountNavDaily : Sql.Table NavRow.key
  positionSnapshotDaily : Sql.Table PositionSnapshotRow.key

/-- What `capture` returns. -/
structure CaptureResult where
  navRows : ℕ
  positionRows : ℕ
  positionRowsSeen : ℕ
  sessionClose : Instant
  staleAccounts : List (String × Option Instant)
  alreadyCaptured : List String
  deriving DecidableEq

/-- Open positions of accounts to be written without any row of the attribution. -/
structure SnapshotError where
  openPositions : ℕ
  accounts : List String

/-- The text of the error. -/
def SnapshotError.message (e : SnapshotError) : String :=
  toString e.openPositions ++ " open positions in " ++
    toString (e.accounts.map fun a => "'" ++ a ++ "'") ++
    " but the attribution read returned none; nothing written"

/-- `_accounts`: the rows with an account id, by the trimmed id. -/
def accounts (b : Brokerage) : List (String × AccountRow) :=
  (b.account.rows.map fun a => (trimSpaces a.accountId, a)).filter fun a => a.1 ≠ ""

/-- `_positions_meta`: the open positions with the time of each row. -/
def positionsMeta (b : Brokerage) : List ((String × String) × Instant) :=
  (b.positions.rows.filter fun p => p.position.any (· ≠ 0)).map fun p =>
    ((trimSpaces p.accountId, trimSpaces p.contractKey), p.updatedAt)

/-- `_captured_accounts`. -/
def capturedAccounts (s : Snapshots) (d : Date) : List String :=
  (s.accountNavDaily.rows.filter fun r => r.snapshotDate = d).map NavRow.accountId

/-- A dictionary from its assignments: a key keeps its first place and its last value. -/
def dict {κ ν : Type*} [DecidableEq κ] (l : List (κ × ν)) : List (κ × ν) :=
  (groupBy Prod.fst l).flatMap fun g => g.2.getLast?.toList

theorem mem_of_mem_dict {κ ν : Type*} [DecidableEq κ] {l : List (κ × ν)} {x : κ × ν}
    (h : x ∈ dict l) : x ∈ l := by
  obtain ⟨g, hg, hx⟩ := List.mem_flatMap.1 h
  have hlast : x ∈ g.2 := List.mem_of_getLast? (by simpa using hx)
  rw [(mem_groupBy.1 hg).2] at hlast
  exact List.mem_of_mem_filter hlast

theorem mem_dict_key {κ ν : Type*} [DecidableEq κ] {l : List (κ × ν)} {k : κ} :
    k ∈ (dict l).map Prod.fst ↔ k ∈ l.map Prod.fst := by
  constructor
  · intro h
    obtain ⟨x, hx, rfl⟩ := List.mem_map.1 h
    exact List.mem_map_of_mem (mem_of_mem_dict hx)
  · intro h
    -- the last of the entries under the key is one of the dictionary
    have hgroup : (k, l.filter fun a => a.1 = k) ∈ groupBy Prod.fst l := mem_groupBy.2 ⟨h, rfl⟩
    obtain ⟨x, hx, rfl⟩ := List.mem_map.1 h
    have hne : l.filter (fun a => a.1 = x.1) ≠ [] :=
      List.ne_nil_of_mem (List.mem_filter.2 ⟨hx, by simp⟩)
    refine List.mem_map.2 ⟨(l.filter fun a => a.1 = x.1).getLast hne, ?_, ?_⟩
    · refine List.mem_flatMap.2 ⟨_, hgroup, ?_⟩
      simp [List.getLast?_eq_some_getLast hne]
    · simpa using List.of_mem_filter (List.getLast_mem hne)

/-- Whether an account's row is not older than the close. -/
def isFresh (closeAt : Instant) (a : AccountRow) : Bool :=
  a.updatedAt.any fun u => closeAt ≤ u

/-- The accounts to be written. -/
def pendingAccounts (closeAt : Instant) (captured : List String) (b : Brokerage) :
    List (String × AccountRow) :=
  dict ((accounts b).filter fun a => a.1 ∉ captured ∧ isFresh closeAt a.2)

/-- The accounts skipped: stale ones, and open positions without an account row. -/
def staleAccounts (closeAt : Instant) (captured : List String) (b : Brokerage) :
    List (String × Option Instant) :=
  let pending := (pendingAccounts closeAt captured b).map Prod.fst
  let stale := (accounts b).filter fun a => a.1 ∉ captured ∧ !isFresh closeAt a.2
  let known := pending ++ captured ++ stale.map Prod.fst
  let unknown := ((positionsMeta b).map fun p => p.1.1).filter fun a => a ∉ known
  dict (stale.map (fun a => (a.1, a.2.updatedAt)) ++ unknown.map fun a => (a, none))

/-- `summary_extra_values` of one tag. -/
def summaryExtraValue (a : AccountRow) (tag : String) : Option ℚ :=
  ((dict (a.summaryExtra.getD [])).lookup tag).bind PayloadValue.finite

/-- The row of an account. -/
def navRow (d : Date) (acct : String) (a : AccountRow) : NavRow where
  snapshotDate := d
  accountId := acct
  netLiquidation := a.netLiquidation
  totalCash := a.totalCash
  buyingPower := a.buyingPower
  cushion := summaryExtraValue a "Cushion"
  excessLiquidity := summaryExtraValue a "ExcessLiquidity"
  maintMarginReq := summaryExtraValue a "MaintMarginReq"
  accountUpdatedAt := a.updatedAt

/-- `capture`; `attribution` is what the attribution read would return, and the rows are split in
exact arithmetic. -/
def capture (cal : MarketCalendar) (b : Brokerage) (s : Snapshots) (snapshotDate : Date)
    (attribution : List AttributionRow) : Except SnapshotError (Snapshots × CaptureResult) :=
  let closeAt := cal.sessionCloseAt snapshotDate
  let captured := capturedAccounts s snapshotDate
  let openPositions := dict (positionsMeta b)
  let pending := pendingAccounts closeAt captured b
  let result : CaptureResult :=
    { navRows := 0
      positionRows := 0
      positionRowsSeen := 0
      sessionClose := closeAt
      staleAccounts := sortedBy Prod.fst (staleAccounts closeAt captured b)
      alreadyCaptured := sortedBy id captured }
  if pending = [] then .ok (s, result)
  else
    let isPending (acct : String) : Bool := pending.any fun p => p.1 = acct
    let pendingPositions := openPositions.filter fun p => isPending p.1.1
    let attr := attribution.filter fun r => isPending (strip (textOrEmpty r.accountId))
    if pendingPositions ≠ [] ∧ attr = [] then
      .error ⟨pendingPositions.length, sortedBy id (pending.map Prod.fst)⟩
    else
      let rows := splitRows id attr
      let (accountNavDaily, nav) := s.accountNavDaily.insertAllOrIgnore
        ((sortedBy Prod.fst pending).map fun p => navRow snapshotDate p.1 p.2)
      let (positionSnapshotDaily, written) := s.positionSnapshotDaily.insertAllOrIgnore
        (rows.map fun r =>
          ⟨snapshotDate, r, openPositions.lookup (r.accountId, r.contractKey), .empty⟩)
      .ok (⟨accountNavDaily, positionSnapshotDaily⟩,
        { result with navRows := nav, positionRows := written, positionRowsSeen := rows.length })

end Portfolio.Snapshot
