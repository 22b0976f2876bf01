import BifrostTrade.Lib.Schema
import BifrostTrade.Lib.Table
import BifrostTrade.Portfolio.WriteSupport

/-!
# Gate sets

The safety limits of the daemon (`monitor/schemas/gate_params.py`), how they are read
(`monitor/reader/gate_safety.py`) and changed (`patch_gate_safety` of
`monitor/reader/gate_safety_write.py`).  The limits of a set are one JSON object, in which a leaf
that is missing has its default.

What pydantic does with the value of one leaf, what is read back of a `jsonb` column, and which
statements fail are parameters.
-/

namespace Portfolio.GateSafety

open Py
open Py.Iso (codes)
open Py.Json (Members Path setKey)

/-- The code points of a key. -/
def key (name : String) : List ℕ := codes name.toList

/-! ## The schema -/

/-- The types of the leaves. -/
inductive LeafType where
  | int
  | float
  | bool
  | strings
  deriving DecidableEq

/-- An integer with its default. -/
def intField (name : String) (default : ℤ) : List ℕ × Schema LeafType :=
  (key name, .leaf .int (.int default))

/-- A float with its default. -/
def floatField (name : String) (default : ℚ) : List ℕ × Schema LeafType :=
  (key name, .leaf .float (.float (nearest default)))

/-- A truth value with its default. -/
def boolField (name : String) (default : Bool) : List ℕ × Schema LeafType :=
  (key name, .leaf .bool (.bool default))

/-- `GateStructureParams`. -/
def gateStructureParams : Schema LeafType :=
  .model "GateStructureParams"
    [intField "min_dte" 21, intField "max_dte" 35, floatField "atm_band_pct" (3 / 100)]

/-- `GateEarningsParams`. -/
def gateEarningsParams : Schema LeafType :=
  .model "GateEarningsParams"
    [intField "blackout_days_before" 3, intField "blackout_days_after" 1,
      (key "dates", .leaf .strings (.array []))]

/-- `GateStrategyParams`. -/
def gateStrategyParams : Schema LeafType :=
  .model "GateStrategyParams"
    [(key "structure", gateStructureParams), (key "earnings", gateEarningsParams),
      boolField "trading_hours_only" true]

/-- `GateDeltaParams`. -/
def gateDeltaParams : Schema LeafType :=
  .model "GateDeltaParams"
    [intField "epsilon_band" 10, intField "threshold_hedge_shares" 25,
      intField "max_delta_limit" 500]

/-- `GateMarketParams`. -/
def gateMarketParams : Schema LeafType :=
  .model "GateMarketParams" [intField "vol_window_min" 5, intField "stale_ts_threshold_ms" 5000]

/-- `GateLiquidityParams`. -/
def gateLiquidityParams : Schema LeafType :=
  .model "GateLiquidityParams"
    [floatField "wide_spread_pct" (1 / 10), floatField "extreme_spread_pct" (1 / 2)]

/-- `GateSystemParams`. -/
def gateSystemParams : Schema LeafType :=
  .model "GateSystemParams" [intField "data_lag_threshold_ms" 1000]

/-- `GateStateParams`. -/
def gateStateParams : Schema LeafType :=
  .model "GateStateParams"
    [(key "delta", gateDeltaParams), (key "market", gateMarketParams),
      (key "liquidity", gateLiquidityParams), (key "system", gateSystemParams)]

/-- `GateHedgeParams`. -/
def gateHedgeParams : Schema LeafType :=
  .model "GateHedgeParams"
    [intField "min_hedge_shares" 10, intField "cooldown_seconds" 60,
      intField "max_hedge_shares_per_order" 500, floatField "min_price_move_pct" (1 / 5)]

/-- `GateIntentParams`. -/
def gateIntentParams : Schema LeafType :=
  .model "GateIntentParams" [(key "hedge", gateHedgeParams)]

/-- `GateRiskParams`. -/
def gateRiskParams : Schema LeafType :=
  .model "GateRiskParams"
    [intField "max_daily_hedge_count" 50, intField "max_position_shares" 2000,
      floatField "max_daily_loss_usd" 5000, intField "max_net_delta_shares" 100,
      floatField "max_spread_pct" (1 / 20), boolField "paper_trade" true]

/-- `GateGuardParams`. -/
def gateGuardParams : Schema LeafType :=
  .model "GateGuardParams" [(key "risk", gateRiskParams)]

/-- `GateParams`. -/
def gateParams : Schema LeafType :=
  .model "GateParams"
    [(key "strategy", gateStrategyParams), (key "state", gateStateParams),
      (key "intent", gateIntentParams), (key "guard", gateGuardParams)]

/-! ## Rows -/

/-- The dimensions of the catalog, with the codes of each. -/
inductive DimType where
  | direction
  | structureDim
  | coverage
  | risk
  | volatility
  | time
  deriving DecidableEq

/-- The name of a dimension. -/
def DimType.name : DimType → String
  | .direction => "direction"
  | .structureDim => "structure"
  | .coverage => "coverage"
  | .risk => "risk"
  | .volatility => "volatility"
  | .time => "time"

/-- The codes a dimension may have. -/
def DimType.allowedCodes : DimType → List String
  | .direction => ["bullish", "bearish", "neutral"]
  | .structureDim => ["single_leg", "vertical", "calendar", "diagonal", "straddle", "condor",
      "butterfly", "ratio", "custom"]
  | .coverage => ["covered", "naked", "cash_secured", "synthetic"]
  | .risk => ["defined", "undefined"]
  | .volatility => ["long_vol", "short_vol", "vol_neutral"]
  | .time => ["weekly", "monthly", "leaps", "flex"]

/-- `is_valid_dim_code`. -/
def isValidDimCode (d : DimType) (code : List ℕ) : Bool :=
  stripPoints code ∈ d.allowedCodes.map key

/-- The columns beside the limits. -/
inductive Column where
  | name
  | version
  | dim (d : DimType)
  | isActive
  deriving DecidableEq

/-- The columns as a patch checks them. -/
def columns : List Column :=
  [.name, .version, .dim .direction, .dim .structureDim, .dim .coverage, .dim .risk,
    .dim .volatility, .dim .time, .isActive]

/-- The column's field in a patch. -/
def Column.field : Column → String
  | .name => "name"
  | .version => "version"
  | .dim d => "dim_" ++ d.name
  | .isActive => "is_active"

/-- A row of `gate_safety_strategy`; `params_json` as the driver gives it. -/
structure GateSet where
  id : ℤ
  cells : Column → Json.Value
  params : Json.Value

/-- The table of the gate sets. -/
abbrev Gates := Sql.Table GateSet.id

/-! ## Reading -/

/-- Why a write is refused. -/
inductive WriteError where
  | invalid (reason : String)
  | notFound (reason : String)
  | conflict (reason : String)
  | failed (reason : String)
  | raised (e : Raised)

/-- The statements of a patch that may fail. -/
inductive Step where
  | connect
  | select
  | update
  | read
  | commit

/-- What is outside: pydantic's check of a leaf, what a `jsonb` column gives back of what it is
given, and how a statement fails. -/
structure Env where
  check : LeafType → Json.Value → Except ValidationError Json.Value
  jsonb : Json.Value → Except WriteError Json.Value
  fault : Step → Option WriteError

section Env

variable (env : Env)

/-- `GateParams.model_validate(value).model_dump()`. -/
def modelDump (value : Json.Value) : Except ValidationError Json.Value :=
  Schema.validate env.check gateParams value

/-- `_parse_params_json`; `none` where it raises. -/
def parseParamsJson (raw : Json.Value) : Option Json.Value :=
  match raw with
  | .object members => (modelDump env (.object members)).toOption
  | .text points =>
      (Json.loads (points.map Char.ofNat)).bind fun v =>
        if v.isObject then (modelDump env v).toOption else some gateParams.dump
  | _ => some gateParams.dump

/-- The members of an object, none of another value. -/
def membersOf : Option Json.Value → Members
  | some (.object members) => members
  | _ => []

/-- The dates that are no empty text. -/
def datesOf : Option Json.Value → List (List ℕ)
  | some (.array items) => items.filterMap fun
      | .text points => if points = [] then none else some points
      | _ => none
  | _ => []

/-- `split_earnings_dates`. -/
def splitEarningsDates (gates : Members) : Members × List (List ℕ) :=
  match gates.lookup (key "strategy") with
  | some (.object strategy) =>
      match strategy.lookup (key "earnings") with
      | some (.object earnings) =>
          (setKey gates (key "strategy", .object (setKey strategy
            (key "earnings", .object (earnings.filter fun m => m.1 ≠ key "dates")))),
            datesOf (earnings.lookup (key "dates")))
      | _ => (gates, [])
  | _ => (gates, [])

/-- What a read answers. -/
structure GateSetRead where
  id : ℤ
  cells : Column → Json.Value
  gates : Json.Value
  earningsDates : List (List ℕ)

/-- `get_gate_safety_full_by_id` on the row; `none` where it raises. -/
def readFull (row : GateSet) : Option GateSetRead :=
  (parseParamsJson env row.params).map fun params =>
    let split := splitEarningsDates (membersOf (some params))
    { id := row.id, cells := row.cells, gates := .object split.1, earningsDates := split.2 }

end Env

/-! ## The checks of a patch -/

/-- `GATE_SAFETY_PATCHABLE`. -/
def gateSafetyPatchable : List String := columns.map Column.field ++ ["gates", "earnings_dates"]

/-- Texts of code points, separated by commas. -/
def joined (names : List (List ℕ)) : String := ", ".intercalate (names.map pointsText)

/-- `check_fields`. -/
def checkFields (fields : Json.Value) (allowed : List String) (what : String) :
    Except Failure Members :=
  match fields with
  | .object members =>
      let unknown := (members.map Prod.fst).filter fun k => k ∉ allowed.map key
      if members = [] then
        .error (.refused ("Nothing to change: send at least one " ++ what ++ " field."))
      else if unknown ≠ [] then
        .error (.refused ("Unknown " ++ what ++ " field" ++
          (if 1 < unknown.length then "s" else "") ++ ": " ++
          joined (unknown.mergeSort fun a b => a ≤ b) ++ ". Patchable: " ++
          ", ".intercalate allowed ++ "."))
      else .ok members
  | _ => .error (.refused ("The " ++ what ++ " fields must be an object."))

/-- A value that may be missing. -/
def orNull {α : Type} (f : α → Json.Value) : Option α → Json.Value
  | some a => f a
  | none => .null

/-- The check of a code against the catalog. -/
def checkDim (d : DimType) : Option (List ℕ) → Except Failure Json.Value
  | some code =>
      if isValidDimCode d code then .ok (.text code)
      else .error (.refused ("dim_" ++ d.name ++ ": " ++ pointsText code ++
        " is not a code in the dim catalog."))
  | none => .ok .null

/-- The value of a column as it is written. -/
def checkColumn : Column → Json.Value → Except Failure Json.Value
  | .name, v => (WriteSupport.text v "name" false none).map (orNull .text)
  | .version, v => (WriteSupport.integer v "version" false (some 1)).map (orNull .int)
  | .dim d, v => WriteSupport.text v ("dim_" ++ d.name) true none >>= checkDim d
  | .isActive, v => (WriteSupport.boolean v "is_active").map .bool

/-- The columns that are sent, checked one after the other. -/
def checkColumns (fields : Members) : Except Failure (List (Column × Json.Value)) :=
  (columns.filterMap fun c => (fields.lookup (key c.field)).map fun v => (c, v)).mapM fun cv =>
    (checkColumn cv.1 cv.2).map fun x => (cv.1, x)

mutual

/-- `_unknown_gate_paths` of the members of an object. -/
def unknownGatePaths (reference : Members) (before : List ℕ) : Members → List (List ℕ)
  | [] => []
  | (k, value) :: given =>
      unknownAt (reference.lookup k) (before ++ k) value ++ unknownGatePaths reference before given

/-- The unknown paths of one member. -/
def unknownAt : Option Json.Value → List ℕ → Json.Value → List (List ℕ)
  | none, path, _ => [path]
  | some (.object reference), path, .object given =>
      unknownGatePaths reference (path ++ key ".") given
  | some (.object _), path, _ => [path ++ key " (must be an object)"]
  | some _, _, _ => []

end

/-- Whether the gates name the earnings dates. -/
def namesDates (gates : Members) : Bool :=
  ((membersOf ((membersOf (gates.lookup (key "strategy"))).lookup (key "earnings"))).lookup
    (key "dates")).isSome

/-- The gates that are sent. -/
def checkGates (fields : Members) : Except Failure (Option Members) :=
  match fields.lookup (key "gates") with
  | none => .ok none
  | some (.object gates) =>
      let unknown := unknownGatePaths (membersOf (some gateParams.dump)) [] gates
      if unknown ≠ [] then .error (.refused ("Unknown gates field: " ++ joined unknown ++ "."))
      else if namesDates gates = true then
        .error (.refused ("earnings dates belong in the top-level earnings_dates field, " ++
          "not in gates.strategy.earnings.dates."))
      else .ok (some gates)
  | some _ => .error (.refused "gates must be an object.")

/-- One of the dates. -/
def checkDate (index : ℕ) (item : Json.Value) : Except Failure (List ℕ) := do
  let name := "earnings_dates[" ++ toString index ++ "]"
  let text ← WriteSupport.text item name false none
  if strptimeDate (pointsText (text.getD [])) = none then
    .error (.refused (name ++ " must be a date (YYYY-MM-DD)."))
  else .ok (text.getD [])

/-- `_patch_earnings_dates`. -/
def patchEarningsDates (value : Json.Value) : Except Failure (List (List ℕ)) := do
  let items ← WriteSupport.listValue value "earnings_dates"
  items.zipIdx.mapM fun item => checkDate item.2 item.1

/-- The dates of a patch, where it has any. -/
def checkDates (fields : Members) : Except Failure (Option (List (List ℕ))) :=
  match fields.lookup (key "earnings_dates") with
  | none => .ok none
  | some v => (patchEarningsDates v).map some

/-- What a patch changes. -/
structure Changes where
  cells : List (Column × Json.Value)
  gates : Option Members
  dates : Option (List (List ℕ))

/-- The checks of a patch before it opens a connection. -/
def checkPatch (fields : Json.Value) : Except Failure Changes := do
  let fields ← checkFields fields gateSafetyPatchable "gate set"
  let cells ← checkColumns fields
  let gates ← checkGates fields
  let dates ← checkDates fields
  return ⟨cells, gates, dates⟩

/-! ## The write -/

mutual

/-- `_deep_merge`. -/
def deepMerge (base : Members) : Members → Members
  | [] => base
  | (k, value) :: patch => deepMerge (setKey base (k, mergedValue (base.lookup k) value)) patch

/-- The value of a key after the merge. -/
def mergedValue (old : Option Json.Value) : Json.Value → Json.Value
  | .object patch =>
      match old with
      | some (.object base) => .object (deepMerge base patch)
      | _ => .object patch
  | value => value

end

/-- `params.setdefault("strategy", {}).setdefault("earnings", {})["dates"] = dates`. -/
def setDates (params : Members) (dates : List (List ℕ)) : Members :=
  let strategy := membersOf (params.lookup (key "strategy"))
  let earnings := membersOf (strategy.lookup (key "earnings"))
  setKey params (key "strategy", .object (setKey strategy
    (key "earnings", .object (setKey earnings (key "dates", .array (dates.map .text))))))

/-- The limits with what is sent put in. -/
def patchedParams (params : Members) (changes : Changes) : Members :=
  let merged := changes.gates.elim params (deepMerge params)
  changes.dates.elim merged (setDates merged)

section Env

variable (env : Env)

/-- A statement that may fail. -/
def Env.run (step : Step) : Except WriteError Unit :=
  match env.fault step with
  | some e => .error e
  | none => .ok ()

/-- The message of pydantic's first error. -/
def invalidGates (e : ValidationError) : WriteError :=
  .invalid ("gates." ++ ".".intercalate (e.loc.map pointsText) ++ ": " ++ e.msg ++ ".")

/-- The refusal for an id without a row. -/
def notFound (id : ℤ) : WriteError := .notFound ("No gate set " ++ toString id ++ ".")

/-- What raises in the transaction is no refusal of its own. -/
def writeFailed (id : ℤ) : WriteError :=
  .failed ("Cannot write gate set " ++ toString id ++ ": the database write failed.")

/-- The new limits of a row, as they are read back. -/
def newParams (row : GateSet) (changes : Changes) : Except WriteError Json.Value :=
  match parseParamsJson env row.params with
  | none => .error (writeFailed row.id)
  | some params =>
      match modelDump env (.object (patchedParams (membersOf (some params)) changes)) with
      | .error e => .error (invalidGates e)
      | .ok dumped => env.jsonb dumped

/-- The limits that the row is given; those it has where the patch does not name any. -/
def writtenParams (table : Gates) (id : ℤ) (changes : Changes) :
    Except WriteError (Option Json.Value) :=
  if changes.gates.isNone ∧ changes.dates.isNone then .ok none
  else do
    env.run .select
    match table.get id with
    | none => .error (notFound id)
    | some row => (newParams env row changes).map some

/-- The row after the update. -/
def GateSet.patched (row : GateSet) (cells : List (Column × Json.Value))
    (params : Option Json.Value) : GateSet where
  id := row.id
  cells := fun c => (cells.lookup c).getD (row.cells c)
  params := params.getD row.params

/-- `UPDATE … WHERE gate_safety_strategy_id = id`. -/
def update (table : Gates) (id : ℤ) (cells : List (Column × Json.Value))
    (params : Option Json.Value) : Gates :=
  table.update (fun row => if row.id = id then row.patched cells params else row) fun row => by
    split_ifs <;> rfl

/-- `get_gate_safety_full_by_id` in the transaction; `none` also where the statement fails. -/
def readBack (table : Gates) (id : ℤ) : Option GateSetRead :=
  if (env.fault .read).isSome then none else (table.get id).bind (readFull env)

/-- The transaction: the row as it is read back, and the table. -/
def patchTransaction (table : Gates) (id : ℤ) (changes : Changes) :
    Except WriteError (GateSetRead × Gates) := do
  let params ← writtenParams env table id changes
  env.run .update
  match table.get id with
  | none => .error (notFound id)
  | some _ =>
      let updated := update table id changes.cells params
      match readBack env updated id with
      | none => .error (.failed ("gate set " ++ toString id ++
          " was changed but could not be read back; nothing was saved."))
      | some read => do
          env.run .commit
          return (read, updated)

/-- A refusal of a check. -/
def ofFailure : Failure → WriteError
  | .refused reason => .invalid reason
  | .raised e => .raised e

/-- `patch_gate_safety`; what fails is rolled back. -/
def patchGateSafety (table : Gates) (id : ℤ) (fields : Json.Value) :
    Except WriteError GateSetRead × Gates :=
  match checkPatch fields with
  | .error e => (.error (ofFailure e), table)
  | .ok changes =>
      match (do env.run .connect; patchTransaction env table id changes) with
      | .error e => (.error e, table)
      | .ok (read, updated) => (.ok read, updated)

end Env

end Portfolio.GateSafety
