import BifrostTrade.Portfolio.SnapshotCapture

/-!
# Snapshot enrichment

`enrich` of `portfolio/snapshot/daily.py`, which fills the empty columns of a session's position
rows from the market-data plugin, and `mark_below_intrinsic` of `portfolio/reader/snapshots.py`,
which reads the marks back.
-/

namespace Portfolio.Snapshot

open Py Persistence

/-- `MARK_VENDOR_EOD`. -/
def markVendorEod : String := "vendor_eod"

/-- `MARK_VENDOR_IV_MODEL`. -/
def markVendorIvModel : String := "vendor_iv_model"

/-- `MARK_INTRINSIC_FLOOR`. -/
def markIntrinsicFloor : String := "intrinsic_floor"

/-- The sources of the marks that enrich writes. -/
def markEodSources : List String := [markVendorEod, markVendorIvModel, markIntrinsicFloor]

/-! ## Contracts -/

/-- The first letter of an option's right. -/
def rightLetter (right : Option String) : String :=
  String.ofList ((upper (strip (textOrEmpty right))).toList.take 1)

/-- `format(n, "08d")`. -/
def strikeDigits (n : ℤ) : String :=
  String.ofList (if n < 0 then '-' :: natText 7 n.natAbs else natText 8 n.natAbs)

/-- `d.strftime("%y%m%d")`. -/
def shortDate (d : Date) : String :=
  String.ofList (natText 2 (d.year % 100) ++ natText 2 d.month ++ natText 2 d.day)

/-- `vendor_option_ticker` of a stored row, whose expiry is a date. -/
def vendorOptionTicker (symbol : String) (expiry : Option Date) (strike : Option ℚ)
    (right : Option String) : Option String :=
  let sym := upper (strip symbol)
  let r := rightLetter right
  match expiry, strike with
  | some exp, some k =>
      if sym = "" ∨ (r ≠ "C" ∧ r ≠ "P") then none
      else some ("O:" ++ sym ++ shortDate exp ++ r ++ strikeDigits (Py.round (k * 1000)))
  | _, _ => none

example : vendorOptionTicker "AAPL" (Date.ofYmd 2026 10 17) (some 150) (some "call") =
    some "O:AAPL261017C00150000" := by decide +kernel

/-! ## Marks -/

/-- A mark this far under intrinsic is under it. -/
def intrinsicTolerance : ℚ := 1 / 100

/-- `intrinsic_value`. -/
def intrinsicValue (strike : Option ℚ) (right : Option String) (underlying : Option ℚ) :
    Option ℚ :=
  match strike, underlying with
  | some k, some s =>
      if rightLetter right = "C" then some (max 0 (s - k))
      else if rightLetter right = "P" then some (max 0 (k - s))
      else none
  | _, _ => none

/-- `STALE_TRADE_MINUTES`. -/
def staleTradeMinutes : ℤ := 30

/-- `STALE_TRADE_DEVIATION`. -/
def staleTradeDeviation : ℚ := 1 / 5

/-- `STALE_TRADE_DEVIATION_MIN`. -/
def staleTradeDeviationMin : ℚ := 1 / 4

/-- `stale_close`; the trade time is what `_timestamp` made of it. -/
def staleClose (close : ℚ) (reference : Option ℚ) (traded : Option Instant)
    (sessionBounds : Option (Instant × Instant)) : Bool :=
  match reference, traded, sessionBounds with
  | some reference, some traded, some (start, closeAt) =>
      if traded < start then true
      else if closeAt - staleTradeMinutes * 60000000 < traded then false
      else max (staleTradeDeviation * reference) staleTradeDeviationMin < |close - reference|
  | _, _, _ => false

/-- `price(S, K, T, r, sigma, right)` of `pricing/black_scholes.py`; `none` where it is not
finite. -/
abbrev BsPrice := ℚ → ℚ → ℚ → ℚ → ℚ → String → Option ℚ

/-- `RATE_POSITIONS_MODEL`. -/
def ratePositionsModel : ℚ := 4 / 100

/-- `_vendor_iv_price`. -/
def vendorIvPrice (bsPrice : BsPrice) (iv : Value) (strike : ℚ) (right : Option String)
    (expiry : Option Date) (underlyingClose : ℚ) (session : Date) : Option ℚ :=
  let days : ℤ := (expiry.map fun e => (e.toOrdinal : ℤ) - session.toOrdinal).getD 0
  match iv.finite with
  | some sigma =>
      if sigma ≤ 0 ∨ days ≤ 0 then none
      else bsPrice underlyingClose strike (days / 365) ratePositionsModel sigma (rightLetter right)
  | none => none

/-- `option_eod_mark`. -/
def optionEodMark (bsPrice : BsPrice) (dayClose iv : Value) (strike : Option ℚ)
    (right : Option String) (expiry : Option Date) (underlyingClose : Option ℚ) (session : Date)
    (lastTradeTs : Option Instant) (sessionBounds : Option (Instant × Instant)) :
    Option ℚ × String :=
  match dayClose.finite with
  | none => (none, markVendorEod)
  | some close =>
      match intrinsicValue strike right underlyingClose with
      | none => (some close, markVendorEod)
      | some intrinsic =>
          let model := vendorIvPrice bsPrice iv (strike.getD 0) right expiry
            (underlyingClose.getD 0) session
          let reference := model.map fun m => max m intrinsic
          if intrinsic - intrinsicTolerance ≤ close ∧
              !staleClose close reference lastTradeTs sessionBounds then
            (some close, markVendorEod)
          else
            match model with
            | some m =>
                if intrinsic ≤ m then (some m, markVendorIvModel)
                else (some intrinsic, markIntrinsicFloor)
            | none => (some intrinsic, markIntrinsicFloor)

/-! ## What a run reads -/

/-- A bar of `/stocks/db/bars/benchmark`. -/
structure Bar where
  barTime : Value
  close : Value

/-- A row of `/options/snapshots`, its times as they are read. -/
structure ChainRow where
  optionTicker : String
  delta : Value
  gamma : Value
  vega : Value
  theta : Value
  iv : Value
  dayClose : Value
  snapshotTs : Option Instant
  lastTradeTs : Option Instant

/-- What the plugin and the database answer in one run; `none` where the call raises. -/
structure EnrichReads where
  closes : List String → Date → Option (List (String × Option Bar))
  optionRows : String → Date → Date → Option (List ChainRow)
  sessionBounds : Date → Option (Instant × Instant)

/-- The text of a value that is one. -/
def valueText : Value → Option String
  | .text s => some s
  | _ => none

/-- `_close_on`; it raises where the time of the bar is out of range. -/
def closeOn (bar : Option Bar) (d : Date) : Option (Option ℚ) :=
  match bar with
  | none => some none
  | some bar =>
      let barDay : Option (Option Date) :=
        match bar.barTime.finite with
        | some epoch =>
            if epoch ≤ 0 then some none else (Date.ofUnixUtc (roundTo 6 epoch)).map some
        | none => some (parseExpiry (valueText bar.barTime))
      barDay.map fun day => if day = some d then bar.close.finite.filter fun c => 0 < c else none

/-- The dictionary `close_by_symbol`. -/
def closeBySymbol (bars : List (String × Option Bar)) (d : Date) :
    Option (List (String × Option ℚ)) :=
  (bars.mapM fun b => (closeOn b.2 d).map fun c => (upper b.1, c)).map dict

/-! ## The rows -/

/-- `sec_type` without the blanks taken off, as the enrichment compares it. -/
def isOptRow (r : PositionSnapshotRow) : Bool := upper (textOrEmpty r.row.secType) = "OPT"

/-- The symbol under which a row's close is looked up. -/
def rowSymbol (r : PositionSnapshotRow) : String := upper (strip (textOrEmpty r.row.symbol))

/-- `_SELECT_TO_ENRICH`. -/
def toEnrich (d : Date) (r : PositionSnapshotRow) : Bool :=
  r.snapshotDate = d ∧ (r.vendor.underlyingClose = none ∨ r.row.mark = none ∨
    isOptRow r ∧ (r.vendor.delta = none ∨ r.vendor.iv = none))

/-- The row of the option chain for a stored row. -/
def chainHit (reads : EnrichReads) (d : Date) (r : PositionSnapshotRow) : Option ChainRow :=
  match vendorOptionTicker (rowSymbol r) r.row.expiry r.row.strike r.row.optionRight,
      r.row.expiry with
  | some ticker, some exp =>
      ((reads.optionRows (rowSymbol r) exp d).bind fun rows =>
        (dict (rows.map fun x => (x.optionTicker, x))).lookup ticker)
  | _, _ => none

/-- What a run found for a row. -/
structure EnrichValues where
  vendor : VendorValues
  mark : Option ℚ
  markSource : String

/-- The close of a row's underlying. -/
def closeFor (closes : List (String × Option ℚ)) (r : PositionSnapshotRow) : Option ℚ :=
  (closes.lookup (rowSymbol r)).join

/-- The dictionary `vals` of a row. -/
def enrichValues (bsPrice : BsPrice) (reads : EnrichReads) (closes : List (String × Option ℚ))
    (bounds : Option (Instant × Instant)) (d : Date) (r : PositionSnapshotRow) : EnrichValues :=
  let underClose := closeFor closes r
  let vendor := { VendorValues.empty with underlyingClose := underClose }
  if isOptRow r then
    match chainHit reads d r with
    | some hit =>
        let m := optionEodMark bsPrice hit.dayClose hit.iv r.row.strike r.row.optionRight
          r.row.expiry (r.vendor.underlyingClose.or underClose) d hit.lastTradeTs bounds
        { vendor :=
            { underlyingClose := underClose
              delta := hit.delta.finite
              gamma := hit.gamma.finite
              vega := hit.vega.finite
              theta := hit.theta.finite
              iv := hit.iv.finite
              greeksAsof := hit.snapshotTs }
          mark := m.1
          markSource := m.2 }
    | none => ⟨vendor, none, markVendorEod⟩
  else ⟨vendor, underClose, markVendorEod⟩

/-- Whether there is anything to store. -/
def EnrichValues.any (v : EnrichValues) : Bool :=
  v.vendor.underlyingClose.isSome || v.vendor.delta.isSome || v.vendor.iv.isSome || v.mark.isSome

/-- `_UPDATE_ENRICH`: only nulls are filled. -/
def EnrichValues.fill (v : EnrichValues) (r : PositionSnapshotRow) : PositionSnapshotRow :=
  { r with
    row :=
      { r.row with
        markSource := if r.row.mark = none ∧ v.mark ≠ none then some v.markSource
          else r.row.markSource
        mark := r.row.mark.or v.mark }
    vendor :=
      { underlyingClose := r.vendor.underlyingClose.or v.vendor.underlyingClose
        delta := r.vendor.delta.or v.vendor.delta
        gamma := r.vendor.gamma.or v.vendor.gamma
        vega := r.vendor.vega.or v.vendor.vega
        theta := r.vendor.theta.or v.vendor.theta
        iv := r.vendor.iv.or v.vendor.iv
        greeksAsof := r.vendor.greeksAsof.or v.vendor.greeksAsof } }

/-- One row of the table after a run, from what the run found for each row. -/
def enrichRow (d : Date) (values : PositionSnapshotRow → EnrichValues) (r : PositionSnapshotRow) :
    PositionSnapshotRow :=
  if toEnrich d r ∧ (values r).any then (values r).fill r else r

theorem enrichRow_key (d : Date) (values : PositionSnapshotRow → EnrichValues)
    (r : PositionSnapshotRow) : (enrichRow d values r).key = r.key := by
  unfold enrichRow
  split_ifs
  · rfl
  · rfl

/-- What `enrich` returns. -/
structure EnrichResult where
  rows : ℕ
  updated : ℕ
  greeksMissing : ℕ
  deriving DecidableEq

/-- The symbols asked for. -/
def symbolsOf (rows : List PositionSnapshotRow) : List String :=
  sortedBy id (firstSeen ((rows.filter fun r => textOrEmpty r.row.symbol ≠ "").map rowSymbol))

/-- The closes a run sees; it raises with `_close_on`. -/
def readCloses (reads : EnrichReads) (rows : List PositionSnapshotRow) (d : Date) :
    Option (List (String × Option ℚ)) :=
  closeBySymbol ((reads.closes (symbolsOf rows) d).getD []) d

/-- The option rows counted as without Greeks. -/
def greeksMissing (reads : EnrichReads) (d : Date) (r : PositionSnapshotRow) : Bool :=
  isOptRow r ∧ (chainHit reads d r).isNone ∧ r.vendor.delta = none

/-- `enrich`; `none` where it raises, before it has written anything. -/
def enrich (bsPrice : BsPrice) (reads : EnrichReads) (s : Snapshots) (d : Date) :
    Option (Snapshots × EnrichResult) :=
  let rows := s.positionSnapshotDaily.rows.filter (toEnrich d)
  if rows = [] then some (s, ⟨0, 0, 0⟩)
  else
    let bounds := if rows.any isOptRow then reads.sessionBounds d else none
    (readCloses reads rows d).map fun closes =>
      let values := enrichValues bsPrice reads closes bounds d
      ({ s with positionSnapshotDaily :=
          s.positionSnapshotDaily.update (enrichRow d values) (enrichRow_key d values) },
        { rows := rows.length
          updated := (rows.filter fun r => (values r).any).length
          greeksMissing := (rows.filter (greeksMissing reads d)).length })

/-! ## Reading back -/

/-- `_is_option`. -/
def isOption (r : PositionSnapshotRow) : Bool := upper (strip (textOrEmpty r.row.secType)) = "OPT"

/-- `mark_below_intrinsic`. -/
def markBelowIntrinsic (r : PositionSnapshotRow) : Option Bool :=
  if isOption r then
    match r.row.mark, intrinsicValue r.row.strike r.row.optionRight r.vendor.underlyingClose with
    | some m, some intrinsic => some (m < intrinsic - intrinsicTolerance)
    | _, _ => none
  else none

end Portfolio.Snapshot
