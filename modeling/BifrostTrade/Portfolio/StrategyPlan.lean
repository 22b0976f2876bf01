import BifrostTrade.Lib.Payload
import BifrostTrade.Lib.Table
import BifrostTrade.Portfolio.PlanLegs

/-!
# Trade plans

The writers of `monitor/reader/strategy_plan.py` and the table `strategy_plan` they write.  A call
reads its payload, decides on the stored plan and sends one statement; what the database makes of
the values, and whether it takes the row, is the environment of the call.
-/

namespace Portfolio.Plan

open Py

/-- Microseconds since the epoch. -/
abbrev Instant := ℤ

/-! ## The table -/

/-- The status of a plan. -/
inductive PlanStatus where
  | draft
  | intended
  | filled
  | cancelled
  deriving DecidableEq, Repr

/-- The status in its column. -/
def PlanStatus.text : PlanStatus → String
  | draft => "draft"
  | intended => "intended"
  | filled => "filled"
  | cancelled => "cancelled"

/-- `_EDITABLE_COLUMNS`. -/
inductive Column where
  | accountId
  | symbol
  | structureLabel
  | strategyStructureId
  | strategyOpportunityId
  | qty
  | priceEffect
  | limitPrice
  | targetKind
  | targetValue
  | stopKind
  | stopValue
  | exitBy
  | rationale
  | sourceKind
  | sourceRef
  | expiresAt
  deriving DecidableEq, Repr

/-- The name of a column. -/
def Column.name : Column → String
  | accountId => "account_id"
  | symbol => "symbol"
  | structureLabel => "structure_label"
  | strategyStructureId => "strategy_structure_id"
  | strategyOpportunityId => "strategy_opportunity_id"
  | qty => "qty"
  | priceEffect => "price_effect"
  | limitPrice => "limit_price"
  | targetKind => "target_kind"
  | targetValue => "target_value"
  | stopKind => "stop_kind"
  | stopValue => "stop_value"
  | exitBy => "exit_by"
  | rationale => "rationale"
  | sourceKind => "source_kind"
  | sourceRef => "source_ref"
  | expiresAt => "expires_at"

/-- The columns that a draft may change. -/
def editableColumns : List Column :=
  [.accountId, .symbol, .structureLabel, .strategyStructureId, .strategyOpportunityId, .qty,
    .priceEffect, .limitPrice, .targetKind, .targetValue, .stopKind, .stopValue, .exitBy,
    .rationale, .sourceKind, .sourceRef, .expiresAt]

/-- What a column holds. -/
inductive Cell where
  | null
  | text (s : String)
  | int (n : ℤ)
  | number (x : Double)
  | date (d : Date)
  | time (t : Instant)
  deriving DecidableEq

/-- Whether a value is of the column's type; null is of every type. -/
def Column.hasType : Column → Cell → Bool
  | _, .null => true
  | .strategyStructureId, .int _ | .strategyOpportunityId, .int _ | .qty, .int _ => true
  | .limitPrice, .number _ | .targetValue, .number _ | .stopValue, .number _ => true
  | .exitBy, .date _ => true
  | .expiresAt, .time _ => true
  | .accountId, .text _ | .symbol, .text _ | .structureLabel, .text _ | .priceEffect, .text _
  | .targetKind, .text _ | .stopKind, .text _ | .rationale, .text _ | .sourceKind, .text _
  | .sourceRef, .text _ => true
  | _, _ => false

/-- Whether the leg is JSON to the database, which has no number that is not finite. -/
def storable (l : PlanLegs.Leg) : Bool :=
  (∀ x ∈ l.strike, x.isFinite) ∧ ∀ x ∈ l.midAtPlan, x.isFinite

/-- A row of `strategy_plan`; `source` are the texts of the objects of `source_json`. -/
structure PlanRow where
  strategyPlanId : ℤ
  fields : Column → Cell
  legs : List PlanLegs.Leg
  source : List String
  status : PlanStatus
  intendedAt : Option Instant
  cancelledAt : Option Instant
  tradeId : Option ℤ
  parentStrategyPlanId : Option ℤ
  createdAt : Instant
  updatedAt : Instant

/-- The table of the plans. -/
abbrev PlanTable := Sql.Table PlanRow.strategyPlanId

/-- `_PRICE_EFFECTS`. -/
def priceEffects : List String := ["credit", "debit"]

/-- `_TARGET_KINDS`. -/
def targetKinds : List String := ["credit_pct", "option_price", "underlying_price"]

/-- `_STOP_KINDS`. -/
def stopKinds : List String := ["credit_multiple", "option_price", "underlying_price"]

/-- `_SOURCE_KINDS`. -/
def sourceKinds : List String := ["manual", "symbol", "hypothesis", "inbox_draft", "roll"]

/-- `x IN (…)`, which null passes. -/
def Cell.isOneOf (options : List String) : Cell → Bool
  | .text s => s ∈ options
  | _ => true

/-- `x >= 0`, which null passes; to the database a NaN is above every number. -/
def Cell.nonneg : Cell → Bool
  | .number (.fin x) => 0 ≤ x
  | .number .negInf => false
  | _ => true

/-- `x > 0`. -/
def Cell.positive : Cell → Bool
  | .int n => 0 < n
  | _ => true

/-- The types, the `NOT NULL` and the `CHECK` of the table. -/
def PlanRow.checks (r : PlanRow) : Bool :=
  (∀ c ∈ editableColumns, c.hasType (r.fields c)) ∧
  (∀ c ∈ [Column.accountId, .symbol, .structureLabel, .qty, .sourceKind], r.fields c ≠ .null) ∧
  (r.fields .qty).positive ∧
  (r.fields .priceEffect).isOneOf priceEffects ∧
  (r.fields .limitPrice).nonneg ∧
  (r.fields .targetKind).isOneOf targetKinds ∧
  (r.fields .stopKind).isOneOf stopKinds ∧
  (r.fields .sourceKind).isOneOf (sourceKinds ++ ["lens", "backtest_run"]) ∧
  (r.fields .targetKind = .null ↔ r.fields .targetValue = .null) ∧
  (r.fields .stopKind = .null ↔ r.fields .stopValue = .null) ∧
  (r.status = .filled ↔ r.tradeId ≠ none)

/-- What a call finds: the time, the parser of `datetime.fromisoformat` with UTC for no zone, the
text between the brackets of a list or an object, the value the database makes of a payload's value
in a column, where it takes it, and whether it takes a row: its foreign keys and the ranges of its
columns. -/
structure CallEnv where
  now : Instant
  isoTimestamp : String → Option Instant
  inner : Json.Value → Except Raised (List ℕ)
  cast : Column → PayloadValue → Option Cell
  accepts : PlanRow → Bool

/-- Whether a statement that brings in the row goes through. -/
def CallEnv.takes (env : CallEnv) (r : PlanRow) : Bool :=
  r.checks ∧ (∀ l ∈ r.legs, storable l) ∧ env.accepts r

/-- `INSERT`; `none` where it raises. -/
def insertPlan (env : CallEnv) (t : PlanTable) (r : PlanRow) : Option PlanTable :=
  if t.hasKey r.strategyPlanId = false ∧ env.takes r then some (t.insertOrIgnore r) else none

/-- Replace a row of the table by one with its id. -/
def replacePlan (t : PlanTable) (new : PlanRow) : PlanTable :=
  t.update (fun r => if r.strategyPlanId = new.strategyPlanId then new else r) fun r => by
    split
    case isTrue h => exact h.symm
    case isFalse => rfl

theorem mem_replacePlan {t : PlanTable} {new p : PlanRow} :
    p ∈ (replacePlan t new).rows ↔ p ∈ t.rows ∧ p.strategyPlanId ≠ new.strategyPlanId ∨
      p = new ∧ ∃ r ∈ t.rows, r.strategyPlanId = new.strategyPlanId := by
  simp only [replacePlan, Sql.Table.update, List.mem_map]
  constructor
  · rintro ⟨r, hr, rfl⟩
    by_cases hid : r.strategyPlanId = new.strategyPlanId
    · exact .inr ⟨if_pos hid, r, hr, hid⟩
    · rw [if_neg hid]
      exact .inl ⟨hr, hid⟩
  · rintro (⟨hp, hid⟩ | ⟨rfl, r, hr, hid⟩)
    · exact ⟨p, hp, if_neg hid⟩
    · exact ⟨r, hr, if_pos hid⟩

/-- `UPDATE … WHERE strategy_plan_id = …`; `none` where it raises. -/
def updatePlanRow (env : CallEnv) (t : PlanTable) (new : PlanRow) : Option PlanTable :=
  if env.takes new then some (replacePlan t new) else none

/-! ## Errors and answers -/

/-- How a writer of plans refuses a call. -/
inductive PlanError where
  /-- `PlanRuleError`. -/
  | rule (reason : String)
  /-- `WriteInvalid`. -/
  | invalid (message : String)
  /-- `WriteConflict`. -/
  | conflict (message : String)
  /-- `WriteNotFound`. -/
  | notFound (message : String)
  /-- A conversion or the database raised. -/
  | failed
  deriving DecidableEq

/-- What raises where there is no value. -/
def orFailed {α : Type} : Option α → Except PlanError α
  | some a => .ok a
  | none => .error .failed

theorem bind_eq_ok {α β : Type} {x : Except PlanError α} {f : α → Except PlanError β} {b : β} :
    (x >>= f) = .ok b ↔ ∃ a, x = .ok a ∧ f a = .ok b := by
  cases x with
  | error e => simp [bind, Except.bind]
  | ok a => simp [bind, Except.bind]

theorem orFailed_eq_ok {α : Type} {o : Option α} {a : α} : orFailed o = .ok a ↔ o = some a := by
  cases o with
  | none => simp [orFailed]
  | some b => simp [orFailed]

/-- An optional field through its validation. -/
def optional {α β : Type} (f : α → Except PlanError β) : Option α → Except PlanError (Option β)
  | none => .ok none
  | some a => (f a).map some

/-- `plan_effective_status`. -/
def planEffectiveStatus (status : PlanStatus) (expiresAt : Cell) (now : Instant) : String :=
  match status, expiresAt with
  | .intended, .time deadline => if deadline < now then "expired" else status.text
  | _, _ => status.text

/-- What a call returns. -/
inductive PlanAnswer where
  | created (strategyPlanId : ℤ)
  | done (changed : Bool)
  | plan (row : PlanRow) (effectiveStatus : String)

/-! ## Legs and source -/

/-- The field `source`; an item that is no object is `none`. -/
inductive SourceField where
  | null
  | notList
  | list (items : List (Option String))

/-- `int(value)` with the rule's words for what is no number. -/
def wholeNumber (v : PayloadValue) (reason : String) : Except PlanError ℤ :=
  if v.overflows then .error .failed
  else match v.toInt with
    | some n => .ok n
    | none => .error (.rule reason)

/-- A number that is converted unless it is `None`. -/
def orNone {α : Type} (convert : PayloadValue → Option α) (v : PayloadValue) :
    Except PlanError (Option α) :=
  if v = .null then .ok none else (orFailed (convert v)).map some

/-- `normalize_plan_legs`: a rule it refuses by, or what its conversions raise. -/
def normalizePlanLegs (env : CallEnv) (value : Json.Value) : Except PlanError (List PlanLegs.Leg) :=
  match PlanLegs.normalizePlanLegs env.inner value with
  | .ok legs => .ok legs
  | .error (.refused reason) => .error (.rule reason)
  | .error (.raised _) => .error .failed

/-- `_normalize_source`. -/
def normalizeSource : SourceField → List String
  | .list items => items.filterMap id
  | _ => []

/-! ## The fields of a payload -/

/-- The fields that a payload names. -/
structure PlanFields where
  columns : Column → Option PayloadValue
  legs : Option Json.Value
  source : Option SourceField

/-- A payload of `create_plan`. -/
structure PlanPayload extends PlanFields where
  parentStrategyPlanId : PayloadValue

/-- The columns that a new plan has to have. -/
def requiredOnCreate : List Column := [.accountId, .symbol, .structureLabel, .qty]

/-- `name.replace('_', ' ')`. -/
def spaced (name : String) : String :=
  String.ofList (name.toList.map fun c => if c = '_' then ' ' else c)

/-- One turn of the loop of `_plan_fields`, for a column that is named or required. -/
def planField (c : Column) (value : PayloadValue) : Except PlanError (Column × PayloadValue) :=
  if c ∈ [Column.accountId, .symbol, .structureLabel] then
    let text := strip value.strOrEmpty
    if text = "" then .error (.rule (spaced c.name ++ " is required"))
    else .ok (c, .text (if c = .symbol then upper text else text))
  else if c = .qty then
    if value = .null then .error (.rule "qty is required")
    else (wholeNumber value "qty must be a whole number").bind fun qty =>
      if qty ≤ 0 then .error (.rule "qty must be 1 or more") else .ok (c, .int qty)
  else .ok (c, value)

/-- `fields.get(c) is None`. -/
def isUnset (fields : List (Column × PayloadValue)) (c : Column) : Bool :=
  (fields.lookup c).getD .null = .null

/-- The kinds and values that go together, with their label. -/
def pairs : List (Column × Column × String) :=
  [(.targetKind, .targetValue, "target"), (.stopKind, .stopValue, "stop")]

/-- `_check_pairs`. -/
def checkPairs (fields : List (Column × PayloadValue)) : Except PlanError Unit :=
  match pairs.find? fun p => isUnset fields p.1 ≠ isUnset fields p.2.1 with
  | some p => .error (.rule ("A " ++ p.2.2 ++ " needs both a kind and a value"))
  | none => .ok ()

/-- `_plan_fields`. -/
def planFields (payload : PlanFields) (require : Bool) :
    Except PlanError (List (Column × PayloadValue)) := do
  let named := editableColumns.filter fun c =>
    (payload.columns c).isSome ∨ require ∧ c ∈ requiredOnCreate
  let fields ← named.mapM fun c => planField c ((payload.columns c).getD .null)
  let fields := if require ∧ fields.lookup .sourceKind = none then
    fields ++ [(.sourceKind, .text "manual")] else fields
  checkPairs fields
  .ok fields

/-! ## The old writers -/

/-- The value a column gets; null stays null. -/
def CallEnv.store (env : CallEnv) (c : Column) (v : PayloadValue) : Option Cell :=
  if v = .null then some .null else env.cast c v

/-- The values that a statement sets. -/
def storeFields (env : CallEnv) (fields : List (Column × PayloadValue)) :
    Except PlanError (List (Column × Cell)) :=
  orFailed (fields.mapM fun f => (env.store f.1 f.2).map fun cell => (f.1, cell))

/-- The columns of a row with some of them set. -/
def setColumns (cells : List (Column × Cell)) (old : Column → Cell) : Column → Cell :=
  fun c => (cells.lookup c).getD (old c)

/-- The `DEFAULT` of a column. -/
def columnDefault (c : Column) : Cell := if c = .sourceKind then .text "manual" else .null

/-- `create_plan`; `newId` is the next of the sequence. -/
def createPlan (env : CallEnv) (newId : ℤ) (t : PlanTable) (payload : PlanPayload) :
    Except PlanError (PlanTable × PlanAnswer) := do
  let fields ← planFields payload.toPlanFields true
  let legs ← normalizePlanLegs env (payload.legs.getD .null)
  let parent ← orNone PayloadValue.toInt payload.parentStrategyPlanId
  let cells ← storeFields env fields
  let t ← orFailed (insertPlan env t
    { strategyPlanId := newId
      fields := setColumns cells columnDefault
      legs
      source := normalizeSource (payload.source.getD .null)
      status := .draft
      intendedAt := none
      cancelledAt := none
      tradeId := none
      parentStrategyPlanId := parent
      createdAt := env.now
      updatedAt := env.now })
  .ok (t, .created newId)

/-- `update_plan`. -/
def updatePlan (env : CallEnv) (t : PlanTable) (strategyPlanId : ℤ) (payload : PlanFields) :
    Except PlanError (PlanTable × PlanAnswer) := do
  let fields ← planFields payload false
  let legs ← optional (normalizePlanLegs env) payload.legs
  match t.get strategyPlanId with
  | none => .ok (t, .done false)
  | some r =>
      if r.status ≠ .draft then
        .error (.rule ("This plan is " ++ r.status.text ++
          ", and only a draft can be edited. Cancel it and write a new one, or roll it."))
      else if fields = [] ∧ legs = none ∧ payload.source.isNone then .ok (t, .done true)
      else
        let cells ← storeFields env fields
        let t ← orFailed (updatePlanRow env t
          { r with
            fields := setColumns cells r.fields
            legs := legs.getD r.legs
            source := (payload.source.map normalizeSource).getD r.source
            updatedAt := env.now })
        .ok (t, .done true)

/-- Whether a stored value counts as true. -/
def Cell.truthy : Cell → Bool
  | .null => false
  | .text s => s ≠ ""
  | _ => true

/-- `plan_exit_is_written`. -/
def planExitIsWritten (targetKind stopKind exitBy : Cell) : Bool :=
  targetKind.truthy ∨ stopKind.truthy ∨ exitBy ≠ .null

/-- `intend_plan`. -/
def intendPlan (env : CallEnv) (t : PlanTable) (strategyPlanId : ℤ) :
    Except PlanError (PlanTable × PlanAnswer) :=
  match t.get strategyPlanId with
  | none => .ok (t, .done false)
  | some r =>
      if r.status ≠ .draft then
        .error (.rule ("This plan is " ++ r.status.text ++
          ", and only a draft can be marked intended."))
      else if r.legs = [] then
        .error (.rule "Write at least one leg before marking this intended.")
      else if ¬ planExitIsWritten (r.fields .targetKind) (r.fields .stopKind)
          (r.fields .exitBy) then
        .error (.rule ("Write a target, a stop or an exit-by date. Without one there is " ++
          "nothing to compare the outcome against."))
      else do
        let t ← orFailed (updatePlanRow env t
          { r with status := .intended, intendedAt := some env.now, updatedAt := env.now })
        .ok (t, .done true)

/-- `str(value)` of a column that holds text. -/
def Cell.str : Cell → String
  | .text s => s
  | _ => "None"

/-- `link_fill`; `tradeAccount` is the account of the trade, where it exists. -/
def linkFill (env : CallEnv) (t : PlanTable) (strategyPlanId tradeId : ℤ)
    (tradeAccount : Option String) : Except PlanError (PlanTable × PlanAnswer) :=
  match t.get strategyPlanId with
  | none => .ok (t, .done false)
  | some r =>
      if r.status ≠ .intended then
        .error (.rule ("This plan is " ++ r.status.text ++
          ". Only an intended plan can be linked to a fill."))
      else match tradeAccount with
        | none => .error (.rule ("No trade " ++ toString tradeId ++ "."))
        | some account =>
            if account ≠ (r.fields .accountId).str then
              .error (.rule ("That instance belongs to account " ++ account ++
                ", and the plan to " ++ (r.fields .accountId).str ++ "."))
            else do
              let t ← orFailed (updatePlanRow env t
                { r with status := .filled, tradeId := some tradeId, updatedAt := env.now })
              .ok (t, .done true)

/-- `cancel_plan`. -/
def cancelPlan (env : CallEnv) (t : PlanTable) (strategyPlanId : ℤ) :
    Except PlanError (PlanTable × PlanAnswer) :=
  match t.get strategyPlanId with
  | none => .ok (t, .done false)
  | some r =>
      if r.status ≠ .draft ∧ r.status ≠ .intended then
        .error (.rule ("This plan is " ++ r.status.text ++ ", and cannot be cancelled."))
      else do
        let t ← orFailed (updatePlanRow env t
          { r with status := .cancelled, cancelledAt := some env.now, updatedAt := env.now })
        .ok (t, .done true)

/-- `ON DELETE SET NULL` of the parent of a plan. -/
def PlanRow.unparent (strategyPlanId : ℤ) (p : PlanRow) : PlanRow :=
  { p with
    parentStrategyPlanId := if p.parentStrategyPlanId = some strategyPlanId then none
      else p.parentStrategyPlanId }

/-- `delete_plan`; a plan that rolled the deleted one has no parent any more. -/
def deletePlan (t : PlanTable) (strategyPlanId : ℤ) : Except PlanError (PlanTable × PlanAnswer) :=
  match t.get strategyPlanId with
  | none => .ok (t, .done false)
  | some r =>
      if r.status ≠ .draft then
        .error (.rule ("This plan is " ++ r.status.text ++ "; only a draft can be deleted."))
      else
        let kept := t.delete fun p => p.strategyPlanId = strategyPlanId
        .ok (kept.update (PlanRow.unparent strategyPlanId) fun _ => rfl, .done true)

/-! ## The patch -/

/-- The refusal of a field. -/
def invalid {α : Type} (name message : String) : Except PlanError α :=
  .error (.invalid (name ++ message))

/-- `ws.text`. -/
def wsText (value : PayloadValue) (name : String) (nullable : Bool) :
    Except PlanError (Option String) :=
  match value with
  | .null => if nullable then .ok none else invalid name " is required."
  | .text s =>
      if strip s ≠ "" then .ok (some (strip s))
      else if nullable then invalid name " is blank; send null to clear it."
      else invalid name " is required."
  | _ => invalid name " must be text."

/-- `ws.integer`. -/
def wsInteger (value : PayloadValue) (name : String) (nullable : Bool) (minimum : ℤ) :
    Except PlanError (Option ℤ) :=
  let bounded (n : ℤ) : Except PlanError (Option ℤ) :=
    if n < minimum then invalid name (" must be " ++ toString minimum ++ " or more.")
    else .ok (some n)
  match value with
  | .null => if nullable then .ok none else invalid name " is required."
  | .int n => bounded n
  | .float (.fin x) => if x.den = 1 then bounded x.num else invalid name " must be a whole number."
  | .text s =>
      let digits := (strip s).toList.dropWhile fun c => c = '-'
      if digits ≠ [] ∧ digits.all isDigit then
        -- a text of digits that `int()` does not take raises
        (orFailed (parseInt (strip s))).bind bounded
      else invalid name " must be a whole number."
  | _ => invalid name " must be a whole number."

/-- `ws.number`, with a minimum of zero or none. -/
def wsNumber (value : PayloadValue) (name : String) (fromZero : Bool) :
    Except PlanError (Option Double) :=
  match value with
  | .null => .ok none
  | .int _ | .float _ =>
      match value.toDouble with
      | some (.fin x) =>
          if fromZero ∧ x < 0 then invalid name " must be 0 or more." else .ok (some (.fin x))
      | some _ => invalid name " must be a finite number."
      -- `float` raises `OverflowError`
      | none => .error .failed
  | _ => invalid name " must be a number."

/-- `ws.choice`. -/
def wsChoice (value : PayloadValue) (name : String) (options : List String) (nullable : Bool) :
    Except PlanError (Option String) :=
  (wsText value name nullable).bind fun out =>
    if ∃ s ∈ out, s ∉ options then
      invalid name (" must be one of " ++ ", ".intercalate options ++ ".")
    else .ok out

/-- `ws.timestamp`. -/
def wsTimestamp (env : CallEnv) (value : PayloadValue) (name : String) :
    Except PlanError (Option Instant) :=
  let unix (x : Double) : Except PlanError (Option Instant) :=
    match x with
    | .fin x =>
        if Date.ofUnixUtc (roundTo 6 x) = none then invalid name " is not a valid Unix time."
        else .ok (some (Py.round (x * 1000000)))
    | _ => invalid name " is not a valid Unix time."
  match value with
  | .null => .ok none
  | .int n => unix (.fin n)
  | .float x => unix x
  | .text s =>
      if strip s = "" then invalid name " must be a timestamp."
      else match env.isoTimestamp (strip s) with
        | some t => .ok (some t)
        | none => invalid name " must be an ISO 8601 timestamp or Unix seconds."
  | _ => invalid name " must be a timestamp."

/-- `ws.calendar_date`. -/
def wsCalendarDate (value : PayloadValue) (name : String) : Except PlanError (Option Date) :=
  match value with
  | .null => .ok none
  | .text s =>
      match strptimeDate (strip s) with
      | some d => .ok (some d)
      | none => invalid name " must be a date (YYYY-MM-DD)."
  | _ => invalid name " must be a date (YYYY-MM-DD)."

/-- A column's value, null for `None`. -/
def cellOf {α : Type} (mk : α → Cell) : Option α → Cell
  | some a => mk a
  | none => .null

/-- A field of `_patch_plan_columns`. -/
def patchCell (env : CallEnv) (c : Column) (value : PayloadValue) : Except PlanError Cell :=
  match c with
  | .accountId | .structureLabel => (wsText value c.name false).map (cellOf .text)
  | .symbol => (wsText value c.name false).map fun s => .text (upper (textOrEmpty s))
  | .strategyStructureId | .strategyOpportunityId =>
      (wsInteger value c.name true 1).map (cellOf .int)
  | .qty => (wsInteger value c.name false 1).map (cellOf .int)
  | .priceEffect => (wsChoice value c.name priceEffects true).map (cellOf .text)
  | .limitPrice => (wsNumber value c.name true).map (cellOf .number)
  | .targetKind => (wsChoice value c.name targetKinds true).map (cellOf .text)
  | .targetValue | .stopValue => (wsNumber value c.name false).map (cellOf .number)
  | .stopKind => (wsChoice value c.name stopKinds true).map (cellOf .text)
  | .exitBy => (wsCalendarDate value c.name).map (cellOf .date)
  | .rationale | .sourceRef => (wsText value c.name true).map (cellOf .text)
  | .sourceKind => (wsChoice value c.name sourceKinds false).map (cellOf .text)
  | .expiresAt => (wsTimestamp env value c.name).map (cellOf .time)

/-- The order in which `_patch_plan_columns` takes the columns. -/
def patchOrder : List Column :=
  [.accountId, .structureLabel, .symbol, .strategyStructureId, .strategyOpportunityId, .qty,
    .priceEffect, .limitPrice, .targetKind, .targetValue, .stopKind, .stopValue, .exitBy,
    .rationale, .sourceRef, .sourceKind, .expiresAt]

/-- The columns of `_patch_plan_columns`. -/
def patchColumns (env : CallEnv) (fields : PlanFields) : Except PlanError (List (Column × Cell)) :=
  (patchOrder.filter fun c => (fields.columns c).isSome).mapM fun c =>
    (patchCell env c ((fields.columns c).getD .null)).map fun cell => (c, cell)

/-- `legs` of a patch. -/
def patchLegs (env : CallEnv) : Json.Value → Except PlanError (List PlanLegs.Leg)
  | .null => invalid "legs" " cannot be null; send [] to empty it."
  | .array items =>
      match normalizePlanLegs env (.array items) with
      | .error (.rule reason) => .error (.invalid reason)
      | legs => legs
  | _ => invalid "legs" " must be a list."

/-- `source` of a patch. -/
def patchSource : SourceField → Except PlanError (List String)
  | .null => invalid "source" " cannot be null; send [] to empty it."
  | .notList => invalid "source" " must be a list."
  | .list items =>
      if none ∈ items then invalid "source" " must be a list of objects."
      else .ok (items.filterMap id)

/-- The names of the fields that are sent. -/
def PlanFields.names (fields : PlanFields) : List String :=
  (editableColumns.filter fun c => (fields.columns c).isSome).map Column.name ++
    (fields.legs.map fun _ => "legs").toList ++ (fields.source.map fun _ => "source").toList

/-- `PLAN_PATCHABLE`. -/
def planPatchable : List String := editableColumns.map Column.name ++ ["legs", "source"]

/-- A body of `patch_plan`: its fields and the names that are none, or no object. -/
inductive PatchBody where
  | notObject
  | object (fields : PlanFields) (unknown : List String)

/-- `ws.check_fields`. -/
def checkFields : PatchBody → Except PlanError PlanFields
  | .notObject => .error (.invalid "The plan fields must be an object.")
  | .object fields unknown =>
      if fields.names = [] ∧ unknown = [] then
        .error (.invalid "Nothing to change: send at least one plan field.")
      else if unknown ≠ [] then
        .error (.invalid ("Unknown plan field" ++ (if 1 < unknown.length then "s" else "") ++
          ": " ++ ", ".intercalate (sortedBy id unknown) ++ ". Patchable: " ++
          ", ".intercalate planPatchable ++ "."))
      else .ok fields

/-- Why the stored plan does not take the fields. -/
def patchProblem (r : PlanRow) (fields : PlanFields) (cells : List (Column × Cell)) :
    Option PlanError :=
  let frozen := sortedBy id (fields.names.filter fun name => name ≠ "expires_at")
  let merged := setColumns cells r.fields
  if r.status = .intended ∧ frozen ≠ [] then
    some (.conflict ("This plan is intended, so only its expiry (expires_at) can change, not " ++
      ", ".intercalate frozen ++ ". Cancel it and write a new one, or roll it."))
  else if r.status ≠ .intended ∧ r.status ≠ .draft then
    some (.conflict ("This plan is " ++ r.status.text ++ ", and cannot be edited."))
  else
    (pairs.find? fun p => decide (merged p.1 = .null) ≠ decide (merged p.2.1 = .null)).map fun p =>
      .invalid ("A " ++ p.2.2 ++ " needs both a kind and a value (or neither).")

/-- `patch_plan`. -/
def patchPlan (env : CallEnv) (t : PlanTable) (strategyPlanId : ℤ) (body : PatchBody) :
    Except PlanError (PlanTable × PlanAnswer) := do
  let fields ← checkFields body
  let cells ← patchColumns env fields
  let legs ← optional (patchLegs env) fields.legs
  let source ← optional patchSource fields.source
  match t.get strategyPlanId with
  | none => .error (.notFound ("No plan " ++ toString strategyPlanId ++ "."))
  | some r =>
      match patchProblem r fields cells with
      | some problem => .error problem
      | none =>
          let new : PlanRow :=
            { r with
              fields := setColumns cells r.fields
              legs := legs.getD r.legs
              source := source.getD r.source
              updatedAt := env.now }
          let t ← orFailed (updatePlanRow env t new)
          .ok (t, .plan new (planEffectiveStatus new.status (new.fields .expiresAt) env.now))

/-! ## Calls -/

/-- A call of a writer. -/
inductive PlanCall where
  | create (newId : ℤ) (payload : PlanPayload)
  | update (strategyPlanId : ℤ) (payload : PlanFields)
  | intend (strategyPlanId : ℤ)
  | linkFill (strategyPlanId tradeId : ℤ) (tradeExists : Bool)
  | cancel (strategyPlanId : ℤ)
  | delete (strategyPlanId : ℤ)
  | patch (strategyPlanId : ℤ) (body : PatchBody)

/-- What a call returns, and the table it would commit; `accountOf` is the account of each trade. -/
def attempt (accountOf : ℤ → String) (t : PlanTable) (env : CallEnv) :
    PlanCall → Except PlanError (PlanTable × PlanAnswer)
  | .create newId payload => createPlan env newId t payload
  | .update id payload => updatePlan env t id payload
  | .intend id => intendPlan env t id
  | .linkFill id tradeId tradeExists =>
      linkFill env t id tradeId (if tradeExists then some (accountOf tradeId) else none)
  | .cancel id => cancelPlan env t id
  | .delete id => deletePlan t id
  | .patch id body => patchPlan env t id body

/-- A call is a transaction: where it raises, the table is as before. -/
def planStep (accountOf : ℤ → String) (t : PlanTable) (e : CallEnv × PlanCall) : PlanTable :=
  match attempt accountOf t e.1 e.2 with
  | .ok (t', _) => t'
  | .error _ => t

end Portfolio.Plan
