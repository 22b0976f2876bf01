import BifrostTrade.Lib.Rollup
import BifrostTrade.Portfolio.SnapshotEnrich

/-!
# P&L attribution

`pnl_attribution` of `portfolio/reader/snapshots.py`: the daily snapshots, each session against the
session before it.  A column is read through `_finite`, so a number of a row is a rational or
missing.
-/

namespace Portfolio.Snapshot

open Py Persistence

/-! ## The quality of the Greeks -/

/-- How good the Greeks of a row are. -/
inductive GreeksQuality
  | vendor
  | degraded
  | missing
  deriving DecidableEq, Repr

/-- The sources of the marks that the session's vendor Greeks describe. -/
def marksWithTheGreeks : List String := [markVendorEod, markVendorIvModel]

/-- Why a mark of another source, or none, degrades the Greeks. -/
def degradeReason (markSource : Option String) : String :=
  if markSource = some markIntrinsicFloor then
    "the mark is intrinsic_floor (the vendor's close was a stale trade and its IV gave no price " ++
      "above intrinsic): no time value, so the Greeks do not describe it"
  else
    "the mark is " ++ ((markSource.bind textOrNone).getD "no mark") ++
      ", not the vendor's session close the Greeks belong to"

/-- `greeks_quality` and its reason; `newYorkDate` is the date of a time in New York. -/
def greeksQuality (newYorkDate : Instant → Date) (r : PositionSnapshotRow) (sessionDate : Date) :
    Option GreeksQuality × Option String :=
  if isOption r = false then (none, none)
  else if r.vendor.delta = none then
    (some .missing, some "the vendor had no Greeks for this contract at the session's close")
  else
    let absent := ([("gamma", r.vendor.gamma), ("vega", r.vendor.vega), ("theta", r.vendor.theta),
      ("iv", r.vendor.iv)].filter fun g => g.2 = none).map Prod.fst
    if absent ≠ [] then
      (some .degraded, some ("delta present, " ++ " / ".intercalate absent ++ " missing"))
    else
      match r.vendor.greeksAsof.map newYorkDate with
      | none => (some .degraded, some "the Greeks carry no as-of time")
      | some greeksSession =>
          if greeksSession ≠ sessionDate then
            (some .degraded,
              some ("the Greeks are as of " ++ greeksSession.isoformat ++ ", not this session"))
          else if ∃ m ∈ r.row.markSource, m ∈ marksWithTheGreeks then (some .vendor, none)
          else (some .degraded, some (degradeReason r.row.markSource))

/-- A row of `_position_rows`. -/
structure PositionRow where
  stored : PositionSnapshotRow
  greeksQuality : Option GreeksQuality
  greeksQualityReason : Option String
  deriving DecidableEq

/-- A stored row with its quality. -/
def positionRow (newYorkDate : Instant → Date) (r : PositionSnapshotRow) : PositionRow :=
  let quality := greeksQuality newYorkDate r r.snapshotDate
  ⟨r, quality.1, quality.2⟩

/-! ## One position across one session -/

/-- `_PARTS`. -/
inductive Part
  | heldPnl
  | deltaPnl
  | gammaPnl
  | vegaPnl
  | thetaPnl
  | unexplained
  deriving DecidableEq, Repr

/-- Whether a row is attributed, or why not. -/
inductive AttributionStatus
  | ok
  | openedInSession
  | closedInSession
  | noMark
  deriving DecidableEq, Repr

/-- Shares of an option contract. -/
def optionMultiplier : ℚ := 100

/-- Shares of one contract of a row. -/
def multiplier (r : PositionSnapshotRow) : ℚ := if isOption r then optionMultiplier else 1

/-- What `attribute_row` returns. -/
structure RowAttribution where
  parts : Part → Option ℚ
  greeksQuality : Option GreeksQuality
  status : AttributionStatus

/-- The close of the underlying on a side; a share's own mark stands for it. -/
def underlyingClose (prior r : PositionSnapshotRow) : Option ℚ :=
  if isOption prior then r.vendor.underlyingClose else r.vendor.underlyingClose.or r.row.mark

/-- The held P&L of a quantity whose mark moved by `dm` and its underlying by `ds`, with the parts
that can be read. -/
def readParts (prior current : PositionSnapshotRow) (qty dm ds : ℚ) (days : ℤ) : Part → Option ℚ
  | .heldPnl => some (qty * dm)
  | .deltaPnl =>
      if isOption prior then prior.vendor.delta.map fun d => qty * d * ds else some (qty * ds)
  | .gammaPnl =>
      if isOption prior then prior.vendor.gamma.map fun g => qty * (1 / 2) * g * ds * ds
      else some 0
  | .vegaPnl =>
      if isOption prior then
        match prior.vendor.vega, prior.vendor.iv, current.vendor.iv with
        | some v, some iv0, some iv1 => some (qty * v * (iv1 - iv0) * 100)
        | _, _, _ => none
      else some 0
  | .thetaPnl =>
      if isOption prior then prior.vendor.theta.map fun t => qty * t * days else some 0
  | .unexplained => none

/-- The held P&L less the four other parts, when all are read. -/
def withUnexplained (parts : Part → Option ℚ) : Part → Option ℚ
  | .unexplained =>
      match parts .heldPnl, parts .deltaPnl, parts .gammaPnl, parts .vegaPnl, parts .thetaPnl with
      | some held, some d, some g, some v, some t => some (held - (d + g + v + t))
      | _, _, _, _, _ => none
  | part => parts part

/-- `attribute_row`. -/
def attributeRow (prior current : Option PositionRow) (days : ℤ) : RowAttribution :=
  match prior, current with
  | none, _ => ⟨fun _ => none, none, .openedInSession⟩
  | some p, none => ⟨fun _ => none, p.greeksQuality, .closedInSession⟩
  | some p, some c =>
      let qty := p.stored.row.tradeQty * multiplier p.stored
      match p.stored.row.mark, c.stored.row.mark, underlyingClose p.stored p.stored,
          underlyingClose p.stored c.stored with
      | some m0, some m1, some s0, some s1 =>
          ⟨withUnexplained (readParts p.stored c.stored qty (m1 - m0) (s1 - s0) days),
            p.greeksQuality, .ok⟩
      | some m0, some m1, _, _ =>
          ⟨fun part => if part = .heldPnl then some (qty * (m1 - m0)) else none,
            p.greeksQuality, .noMark⟩
      | _, _, _, _ => ⟨fun _ => none, p.greeksQuality, .noMark⟩

/-- `_key` of a row: account, contract and trade. -/
abbrev PositionKey := String × String × Option ℤ

/-- The position of a row. -/
def PositionRow.key (r : PositionRow) : PositionKey :=
  (r.stored.row.accountId, r.stored.row.contractKey, r.stored.row.tradeId)

/-- The two sessions that are compared. -/
inductive Side
  | prior
  | current
  deriving DecidableEq, Repr

/-- A row of `items`. -/
structure AttributionItem extends RowAttribution where
  snapshotDate : Date
  priorDate : Date
  accountId : String
  contractKey : String
  tradeId : Option ℤ
  symbol : Option String
  secType : Option String
  expiry : Option Date
  strike : Option ℚ
  optionRight : Option String
  qtyAtPriorClose : Option ℚ
  multiplier : ℚ
  greeksQualityReason : Option String
  markBelowIntrinsic : List Side

/-- The position of an item. -/
def AttributionItem.key (i : AttributionItem) : PositionKey :=
  (i.accountId, i.contractKey, i.tradeId)

/-- Days between two dates. -/
def daysBetween (d p : Date) : ℤ := (d.toOrdinal : ℤ) - p.toOrdinal

/-- The item of a key, from its rows at the prior session's close and at this one's. -/
def attributionItem (d p : Date) (k : PositionKey) (a b : Option PositionRow) : AttributionItem :=
  let info := (a.or b).map PositionRow.stored
  let attribution := attributeRow a b (daysBetween d p)
  { attribution with
    snapshotDate := d
    priorDate := p
    accountId := k.1
    contractKey := k.2.1
    tradeId := k.2.2
    symbol := info.bind fun r => r.row.symbol
    secType := info.bind fun r => r.row.secType
    expiry := info.bind fun r => r.row.expiry
    strike := info.bind fun r => r.row.strike
    optionRight := info.bind fun r => r.row.optionRight
    qtyAtPriorClose := a.map fun r => r.stored.row.tradeQty
    multiplier := (info.map Snapshot.multiplier).getD 1
    greeksQualityReason :=
      if attribution.greeksQuality = none then none else a.bind PositionRow.greeksQualityReason
    markBelowIntrinsic := ([(Side.prior, a), (Side.current, b)].filter fun side =>
      side.2.any fun r => markBelowIntrinsic r.stored = some true).map Prod.fst }

/-! ## Sums -/

/-- The sums and counts of a roll-up. -/
@[ext]
structure Sums where
  parts : Part → ℚ
  rows : ℕ
  readRows : ℕ
  unreadRows : ℕ
  unreadHeldPnl : ℚ
  markAnomalyRows : ℕ
  markAnomalyUnexplained : ℚ
  greeksQuality : GreeksQuality → ℕ
  status : AttributionStatus → ℕ

namespace Sums

/-- `_empty_sums`. -/
def empty : Sums := ⟨0, 0, 0, 0, 0, 0, 0, 0, 0⟩

instance : Zero Sums := ⟨empty⟩

instance : Add Sums :=
  ⟨fun a b =>
    { parts := a.parts + b.parts
      rows := a.rows + b.rows
      readRows := a.readRows + b.readRows
      unreadRows := a.unreadRows + b.unreadRows
      unreadHeldPnl := a.unreadHeldPnl + b.unreadHeldPnl
      markAnomalyRows := a.markAnomalyRows + b.markAnomalyRows
      markAnomalyUnexplained := a.markAnomalyUnexplained + b.markAnomalyUnexplained
      greeksQuality := a.greeksQuality + b.greeksQuality
      status := a.status + b.status }⟩

@[simp] theorem zero_parts : (0 : Sums).parts = 0 := rfl

@[simp] theorem add_parts (a b : Sums) : (a + b).parts = a.parts + b.parts := rfl

instance : AddCommMonoid Sums where
  add_assoc a b c := by ext <;> exact add_assoc _ _ _
  zero_add a := by ext <;> exact zero_add _
  add_zero a := by ext <;> exact add_zero _
  add_comm a b := by ext <;> exact add_comm _ _
  nsmul := nsmulRec

/-- The held P&L is what its parts add up to. -/
def Balanced (s : Sums) : Prop :=
  s.parts .heldPnl = s.parts .deltaPnl + s.parts .gammaPnl + s.parts .vegaPnl +
    s.parts .thetaPnl + s.parts .unexplained

instance (s : Sums) : Decidable s.Balanced := inferInstanceAs (Decidable (_ = _))

end Sums

/-- `counts[k] += 1`. -/
def bump {κ : Type} [DecidableEq κ] (counts : κ → ℕ) (k : κ) : κ → ℕ :=
  Function.update counts k (counts k + 1)

/-- `_add`. -/
def addRow (sums : Sums) (row : AttributionItem) : Sums :=
  let sums := { sums with
    rows := sums.rows + 1
    status := bump sums.status row.status
    greeksQuality := row.greeksQuality.elim sums.greeksQuality (bump sums.greeksQuality) }
  match row.parts .unexplained with
  | some unexplained =>
      let sums := { sums with
        readRows := sums.readRows + 1
        -- no part of a fully read row is missing
        parts := fun k => sums.parts k + (row.parts k).getD 0 }
      if row.markBelowIntrinsic ≠ [] then
        { sums with
          markAnomalyRows := sums.markAnomalyRows + 1
          markAnomalyUnexplained := sums.markAnomalyUnexplained + unexplained }
      else sums
  | none =>
      { sums with
        unreadRows := sums.unreadRows + 1
        unreadHeldPnl := sums.unreadHeldPnl + (row.parts .heldPnl).getD 0 }

/-- The sums of the rows one after another. -/
def sumsOf (rows : List AttributionItem) : Sums := rows.foldl addRow .empty

/-- The groups of a roll-up, in the order of their first rows. -/
def rollupItems {κ : Type} [DecidableEq κ] (keyOf : AttributionItem → κ)
    (items : List AttributionItem) : List (κ × Sums) :=
  (groupBy keyOf items).map fun g => (g.1, sumsOf g.2)

/-! ## Sessions -/

/-- `MAX_RANGE_DAYS`. -/
def maxRangeDays : ℤ := 800

/-- `_date_range`. -/
def dateRange (fromDate toDate : Option Date) : Except String Unit :=
  match fromDate, toDate with
  | some lo, some hi =>
      if hi < lo then .error "from_date is after to_date"
      else if maxRangeDays < daysBetween hi lo then .error "the range is longer than 800 days"
      else .ok ()
  | _, _ => .ok ()

/-- `_closed_holidays`. -/
def closedHolidays (cal : MarketCalendar) (lo hi : Date) : List Date :=
  ((cal.holidays.getD []).filter fun h =>
    lo ≤ h.holidayDate ∧ h.holidayDate ≤ hi ∧ upper h.exchange = "NYSE" ∧
      lower h.status = "closed").map Holiday.holidayDate

/-- The days before a date, at most as many as given, up to the last one that is a session. -/
def lastSessionBefore (closed : List Date) : ℕ → Date → Option Date
  | 0, _ => none
  | n + 1, d =>
      d.prevDay.bind fun p =>
        if 5 ≤ p.weekday ∨ p ∈ closed then lastSessionBefore closed n p else some p

/-- `previous_session`; `none` where there is no date left. -/
def previousSession (d : Date) (closed : List Date) : Option Date :=
  lastSessionBefore closed d.toOrdinal d

/-- One turn of the loop of `previous_session`. -/
theorem previousSession_eq (d : Date) (closed : List Date) :
    previousSession d closed =
      d.prevDay.bind fun p =>
        if 5 ≤ p.weekday ∨ p ∈ closed then previousSession p closed else some p := by
  have hpos : d.toOrdinal = d.toOrdinal - 1 + 1 := by
    have hday := d.day_mem.1
    simp only [Date.toOrdinal]
    omega
  rw [previousSession, hpos, lastSessionBefore]
  cases hp : d.prevDay with
  | none => rfl
  | some p =>
    rw [Option.bind_some, Option.bind_some, previousSession]
    -- the days left are those of the day before
    rw [show d.toOrdinal - 1 = p.toOrdinal by rw [Date.toOrdinal_of_prevDay hp]; omega]

/-- What `pnl_attribution` is asked for. -/
structure AttributionQuery where
  fromDate : Option Date
  toDate : Option Date
  accountId : Option String
  tradeId : Option ℤ

namespace AttributionQuery

/-- `(account_id or "").strip() or None`. -/
def account (q : AttributionQuery) : Option String := textOrNone (strip (textOrEmpty q.accountId))

/-- Whether a stored row is of the account that is asked for. -/
def ofAccount (q : AttributionQuery) (r : PositionSnapshotRow) : Bool :=
  ∀ a ∈ q.account, r.row.accountId = a

/-- Whether a key is of the trade that is asked for. -/
def ofTrade (q : AttributionQuery) (k : PositionKey) : Bool := ∀ t ∈ q.tradeId, k.2.2 = some t

end AttributionQuery

/-- The stored rows of the account that is asked for. -/
def rowsOfAccount (s : Snapshots) (q : AttributionQuery) : List PositionSnapshotRow :=
  s.positionSnapshotDaily.rows.filter q.ofAccount

/-- `_POS_DATES_SQL`. -/
def snapshotDates (s : Snapshots) (q : AttributionQuery) (fromDate toDate : Option Date) :
    List Date :=
  sortedBy id (firstSeen (((rowsOfAccount s q).map PositionSnapshotRow.snapshotDate).filter fun d =>
    (∀ lo ∈ fromDate, lo ≤ d) ∧ ∀ hi ∈ toDate, d ≤ hi))

/-- `_session_dates`. -/
def sessionDates (s : Snapshots) (q : AttributionQuery) : List Date :=
  let dates := snapshotDates s q q.fromDate q.toDate
  if q.fromDate = none ∧ q.toDate = none then dates.getLast?.toList else dates

/-- A row of `sessions`; without a snapshot of the prior session there are no sums. -/
structure SessionRow where
  snapshotDate : Date
  priorDate : Date
  totals : Option (ℤ × Sums)

/-- What `pnl_attribution` returns. -/
structure PnlAttribution where
  items : List AttributionItem
  sessions : List SessionRow
  byTrade : List (Option ℤ × Sums)
  bySymbol : List (Option String × Sums)
  totals : Sums

/-- `by_date[d]`: the rows of a session by their key. -/
def byKey (rows : List PositionRow) (d : Date) : List (PositionKey × PositionRow) :=
  dict ((rows.filter fun r => r.stored.snapshotDate = d).map fun r => (r.key, r))

/-- The order of the keys of a session. -/
def keyOrder (k : PositionKey) : String ×ₗ String ×ₗ Bool ×ₗ ℤ :=
  toLex (k.1, toLex (k.2.1, toLex (k.2.2.isNone, k.2.2.getD 0)))

/-- The items of a session against its prior one. -/
def sessionItems (q : AttributionQuery) (rows : List PositionRow) (d p : Date) :
    List AttributionItem :=
  let prev := byKey rows p
  let cur := byKey rows d
  let keys := sortedBy keyOrder (firstSeen (prev.map Prod.fst ++ cur.map Prod.fst))
  (keys.filter q.ofTrade).map fun k => attributionItem d p k (prev.lookup k) (cur.lookup k)

/-- The group of an item in `by_symbol`. -/
def symbolKey (i : AttributionItem) : Option String :=
  textOrNone (upper (strip (textOrEmpty i.symbol)))

/-- `priors`, in the order of the dates. -/
def priorSessions (cal : MarketCalendar) (dates : List Date) : Option (List (Date × Date)) :=
  match dates.head?, dates.getLast? with
  | some first, some last =>
      (first.minusDays 14).bind fun lo =>
        dates.mapM fun d => (previousSession d (closedHolidays cal lo last)).map fun p => (d, p)
  | _, _ => some []

/-- The roll-ups of the items. -/
def rolledUp (items : List AttributionItem) (sessions : List SessionRow) : PnlAttribution where
  items
  sessions
  byTrade := sortedBy (fun g => (toLex (g.1.isNone, g.1.getD 0) : Bool ×ₗ ℤ))
    (rollupItems (fun i => i.tradeId) items)
  bySymbol := sortedBy (fun g => textOrEmpty g.1) (rollupItems symbolKey items)
  totals := sumsOf items

/-- `pnl_attribution`. -/
def pnlAttribution (newYorkDate : Instant → Date) (cal : MarketCalendar) (s : Snapshots)
    (q : AttributionQuery) : Except String PnlAttribution := do
  dateRange q.fromDate q.toDate
  match priorSessions cal (sessionDates s q) with
  | none => .error "date value out of range"
  | some priors =>
      let stored := snapshotDates s q none none
      let need := sessionDates s q ++ (priors.map Prod.snd).filter (· ∈ stored)
      let rows := ((rowsOfAccount s q).filter fun r => r.snapshotDate ∈ need).map
        (positionRow newYorkDate)
      let read := priors.filter fun dp => dp.2 ∈ stored
      .ok (rolledUp (read.flatMap fun dp => sessionItems q rows dp.1 dp.2)
        (priors.map fun dp =>
          { snapshotDate := dp.1
            priorDate := dp.2
            totals :=
              if dp.2 ∈ stored then
                some (daysBetween dp.1 dp.2, sumsOf (sessionItems q rows dp.1 dp.2))
              else none }))

end Portfolio.Snapshot
