import BifrostTrade.Portfolio.WriteSupport
import BifrostTrade.Strategy.RuleDeletes

/-!
# Writing opportunities

`create_opportunity` and `update_opportunity` take the body of a POST or a PUT and answer an id or
whether they wrote; `patch_opportunity` takes the fields that were sent, changes those alone, and
answers the row as it is read back.  A rule that covers a watchlist names its symbols: each writer
checks it, the patch on the row as it is merged.
-/

namespace Strategy

open Py Sql
open Py.Json (Members)
open Portfolio (WriteSupport.text WriteSupport.rowId WriteSupport.boolean WriteSupport.number
  WriteSupport.listValue)
open Portfolio.GateSafety (key checkFields joined)

/-! ## What the columns take -/

/-- A refusal of a check. -/
def ofFailure : Failure → WriteError
  | .refused reason => .invalid reason
  | .raised e => .raised e

/-- A check whose refusal is the writer's. -/
def checked {α : Type} : Except Failure α → Except WriteError α
  | .ok a => .ok a
  | .error e => .error (ofFailure e)

/-- The text that the driver sends and the database stores, without NUL and lone surrogates. -/
def storedText (points : List ℕ) : Option String :=
  if points.all fun n => n.isValidChar ∧ n ≠ 0 then some (pointsText points) else none

/-- The range of a `bigint`. -/
def fitsBigint (n : ℤ) : Bool := -2 ^ 63 ≤ n ∧ n < 2 ^ 63

/-- The range of an `integer`. -/
def fitsInteger (n : ℤ) : Bool := -2 ^ 31 ≤ n ∧ n < 2 ^ 31

/-- A text that the driver cannot send. -/
def unsendable (what : String) : WriteError :=
  .failed ("Cannot write " ++ what ++ ": the database write failed.")

/-- A value that is not one of the column's type. -/
def wrongForm (what : String) : WriteError :=
  .invalid ("Cannot write " ++ what ++ ": a value has the wrong form.")

/-- `None` of a check that does not let it pass stands for nothing. -/
def required {α : Type} [Inhabited α] (r : Except Failure (Option α)) : Except Failure α :=
  r.map fun o => o.getD default

/-- The check of a field, where it was sent. -/
def sent {α : Type} (fields : Members) (name : String) (check : Json.Value → Except Failure α) :
    Except Failure (Option α) :=
  match fields.lookup (key name) with
  | some v => (check v).map some
  | none => .ok none

/-! ## The scope -/

/-- `SCOPE_TYPES`. -/
def scopeTypes : List ScopeType := [.watchlistStk, .explicitSymbols]

/-- `normalize_scope_type`. -/
def normalizeScopeType : Json.Value → Except Failure (Option ScopeType)
  | .null => .ok none
  | .text points =>
      let text := stripPoints points
      if text = [] then .ok none
      else match scopeTypes.find? fun s => key s.text = text with
        | some s => .ok (some s)
        | none => .error (.refused ("scope_type must be one of " ++
            ", ".intercalate (scopeTypes.map ScopeType.text) ++ " (or null), not '" ++
            pointsText text ++ "'."))
  | _ => .error (.refused "scope_type must be text or null.")

/-- `check_scope_symbols`. -/
def checkScopeSymbols {α : Type} (scopeType : Option ScopeType) (symbols : List α) :
    Except Failure Unit :=
  if scopeType = some .watchlistStk ∧ symbols = [] then
    .error (.refused "scope_type watchlist_stk needs at least one symbol.")
  else .ok ()

/-! ## The bodies of POST and PUT -/

/-- An entry condition as a body has it. -/
structure ConditionBody where
  conditionType : List ℕ
  valueText : Option (List ℕ)
  valueNumeric : Option Double

/-- `OpportunityBody` and `OpportunityUpdateBody`: a name and a structure may be missing, a list may
be missing or null. -/
structure OpportunityBody where
  name : Option (List ℕ)
  strategyStructureId : Option ℤ
  defaultGateSafetyStrategyId : Option ℤ
  scopeType : Option (List ℕ)
  symbols : Option (Option (List (List ℕ)))
  entryConditions : Option (Option (List ConditionBody))
  isActive : Option Bool

/-- An optional value as JSON. -/
def orNull {α : Type} (f : α → Json.Value) : Option α → Json.Value
  | some a => f a
  | none => .null

/-- `_normalize_symbols`. -/
def normalizeSymbols (value : Option (List (List ℕ))) : List (List ℕ) :=
  ((value.getD []).map stripPoints).filter fun s => s ≠ []

/-- A condition that was checked. -/
structure CheckedCondition where
  conditionType : List ℕ
  valueText : Option (List ℕ)
  valueNumeric : Option Double
  sortOrder : ℕ

/-- `_normalize_entry_conditions`: the position in the body is the order, also where a condition
before it has no type. -/
def normalizeEntryConditions (value : Option (List ConditionBody)) : List CheckedCondition :=
  (value.getD []).zipIdx.filterMap fun (c, i) =>
    let conditionType := stripPoints c.conditionType
    if conditionType = [] then none else some ⟨conditionType, c.valueText, c.valueNumeric, i⟩

/-- The object that the `jsonb` column stores; it has no number that is not finite. -/
def CheckedCondition.store (c : CheckedCondition) : Option EntryCondition := do
  let conditionType ← storedText c.conditionType
  let valueText ← match c.valueText with
    | some text => (storedText text).map some
    | none => some none
  if c.valueNumeric.all Double.isFinite then
    return ⟨conditionType, valueText, c.valueNumeric, c.sortOrder⟩
  else none

/-- What a body says of the row beside its lists. -/
structure CheckedBody where
  name : List ℕ
  structureId : ℤ
  gateId : Option ℤ
  scopeType : Option ScopeType
  isActive : Bool

/-- The checks of a body that come before the database. -/
def checkBody (body : OpportunityBody) : Except WriteError CheckedBody :=
  let name := stripPoints (body.name.getD [])
  if name = [] then .error (.valueError "name is required")
  else match body.strategyStructureId with
    | none => .error (.valueError "strategy_structure_id is required")
    | some structureId => do
        let gateId ← checked (WriteSupport.rowId (orNull .int body.defaultGateSafetyStrategyId)
          "default_gate_safety_strategy_id" true)
        let scopeType ← checked (normalizeScopeType (orNull .text body.scopeType))
        return ⟨name, structureId, gateId, scopeType, body.isActive.getD true⟩

/-- What the older writers answer where the driver or the database raises: a text that cannot be
sent is a `ValueError` and goes through, anything else is no answer. -/
def storedName (body : CheckedBody) : Except WriteError String :=
  match storedText body.name with
  | some name => .ok name
  | none => .error (.raised .valueError)

section Writers

variable (detail : Detail) (db : RuleDb)

/-- `create_opportunity`; the sequence gives the id. -/
def createOpportunity (newId : ℤ) (body : OpportunityBody) :
    Except WriteError (Option (ℤ × RuleDb)) := do
  let row ← checkBody body
  let symbols := normalizeSymbols body.symbols.join
  checked (checkScopeSymbols row.scopeType symbols)
  let conditions := normalizeEntryConditions body.entryConditions.join
  let name ← storedName row
  return do
    let symbols ← symbols.mapM storedText
    let conditions ← conditions.mapM CheckedCondition.store
    if fitsBigint row.structureId ∧ row.gateId.all fitsBigint ∧
        db.tables.opportunities.hasKey newId = false then
      let stored : Opportunity :=
        ⟨newId, name, row.structureId, row.gateId, row.scopeType, row.isActive, symbols, conditions⟩
      let after ← ({ db.tables with
        opportunities := db.tables.opportunities.insertOrIgnore stored }.check).toOption
      return (newId, after)
    else none

/-- The lists that an update writes: the body's, else those that are stored. -/
def keptOr {α β : Type} (sentValue : Option (Option α)) (normalize : Option α → List β)
    (stored : List β) : List β :=
  match sentValue with
  | some value => normalize value
  | none => stored

/-- A text that is stored, as its code points. -/
def pointsOfText (s : String) : List ℕ := s.toList.map Char.toNat

/-- An object that is stored, as it was written. -/
def EntryCondition.checked (c : EntryCondition) : CheckedCondition :=
  ⟨pointsOfText c.conditionType, c.valueText.map pointsOfText, c.valueNumeric, c.sortOrder⟩

/-- `update_opportunity`; what a `PUT` leaves out is cleared, but for the two lists. -/
def updateOpportunity (id : ℤ) (body : OpportunityBody) :
    Except WriteError (Option RuleDb) := do
  let row ← checkBody body
  let name ← storedName row
  match db.tables.opportunities.get id with
  | none => return none
  | some existing =>
    if fitsBigint row.structureId = false ∨ row.gateId.all fitsBigint = false then return none
    else
      let changed : RuleTables := { db.tables with
        opportunities := db.tables.opportunities.modify id (fun o => { o with
          name, structureId := row.structureId, gateId := row.gateId, scopeType := row.scopeType,
          isActive := row.isActive }) fun _ => rfl }
      match changed.check with
      | .error _ => return none
      | .ok first => do
        let symbols := keptOr body.symbols normalizeSymbols (existing.symbols.map pointsOfText)
        let conditions := keptOr body.entryConditions normalizeEntryConditions
          (existing.entryConditions.map EntryCondition.checked)
        checked (checkScopeSymbols row.scopeType symbols)
        return do
          let symbols ← symbols.mapM storedText
          let conditions ← conditions.mapM CheckedCondition.store
          ({ first.tables with
            opportunities := first.tables.opportunities.modify id (fun o => { o with
              symbols, entryConditions := conditions }) fun _ => rfl }.check).toOption

/-! ## The patch -/

/-- `OPPORTUNITY_PATCHABLE`. -/
def opportunityPatchable : List String :=
  ["name", "strategy_structure_id", "default_gate_safety_strategy_id", "scope_type", "is_active",
    "symbols", "entry_conditions"]

/-- `_CONDITION_KEYS`. -/
def conditionKeys : List String := ["condition_type", "value_text", "value_numeric", "sort_order"]

/-- `_patch_symbols`. -/
def patchSymbols (value : Json.Value) : Except Failure (List (List ℕ)) := do
  let items ← WriteSupport.listValue value "symbols"
  items.zipIdx.mapM fun (item, i) =>
    required (WriteSupport.text item ("symbols[" ++ toString i ++ "]") false none)

/-- `value_text` of a condition: text or null, as it is. -/
def conditionText (label : String) : Json.Value → Except Failure (Option (List ℕ))
  | .null => .ok none
  | .text points => .ok (some points)
  | _ => .error (.refused (label ++ ".value_text must be text or null."))

/-- One turn of the loop of `_patch_entry_conditions`. -/
def patchEntryCondition (item : Json.Value) (i : ℕ) : Except Failure CheckedCondition :=
  let label := "entry_conditions[" ++ toString i ++ "]"
  match item with
  | .object members => do
      let unknown := (members.map Prod.fst).filter fun k => k ∉ conditionKeys.map key
      if unknown ≠ [] then
        .error (.refused (label ++ ": unknown field " ++
          joined (unknown.mergeSort fun a b => a ≤ b) ++ "."))
      else
        let valueText ← conditionText label (Json.field members "value_text")
        let conditionType ← required (WriteSupport.text (Json.field members "condition_type")
          (label ++ ".condition_type") false none)
        let valueNumeric ← WriteSupport.number (Json.field members "value_numeric")
          (label ++ ".value_numeric") true none
        return ⟨conditionType, valueText, valueNumeric, i⟩
  | _ => .error (.refused (label ++ " must be an object."))

/-- `_patch_entry_conditions`. -/
def patchEntryConditions (value : Json.Value) : Except Failure (List CheckedCondition) := do
  let items ← WriteSupport.listValue value "entry_conditions"
  items.zipIdx.mapM fun (item, i) => patchEntryCondition item i

/-- The columns a patch names, with their checked values. -/
structure OpportunityChanges where
  name : Option (List ℕ)
  structureId : Option ℤ
  gateId : Option (Option ℤ)
  scopeType : Option (Option ScopeType)
  isActive : Option Bool
  symbols : Option (List (List ℕ))
  entryConditions : Option (List CheckedCondition)

/-- The checks of a patch. -/
def checkOpportunityPatch (fields : Json.Value) : Except Failure OpportunityChanges := do
  let fields ← checkFields fields opportunityPatchable "opportunity"
  let name ← sent fields "name" fun v => required (WriteSupport.text v "name" false none)
  let structureId ← sent fields "strategy_structure_id" fun v =>
    required (WriteSupport.rowId v "strategy_structure_id" false)
  let gateId ← sent fields "default_gate_safety_strategy_id" fun v =>
    WriteSupport.rowId v "default_gate_safety_strategy_id" true
  let scopeType ← sent fields "scope_type" normalizeScopeType
  let isActive ← sent fields "is_active" fun v => WriteSupport.boolean v "is_active"
  let symbols ← sent fields "symbols" patchSymbols
  let entryConditions ← sent fields "entry_conditions" patchEntryConditions
  return ⟨name, structureId, gateId, scopeType, isActive, symbols, entryConditions⟩

/-- The columns a patch names, as the database takes them. -/
structure StoredChanges where
  name : Option String
  structureId : Option ℤ
  gateId : Option (Option ℤ)
  scopeType : Option (Option ScopeType)
  isActive : Option Bool
  symbols : Option (List String)
  entryConditions : Option (List EntryCondition)

/-- A conversion of a value that may be missing. -/
def optionally {α β ε : Type} (f : α → Except ε β) : Option α → Except ε (Option β)
  | some a => (f a).map some
  | none => .ok none

/-- A value, or the error there is none for. -/
def orError {α ε : Type} (e : ε) : Option α → Except ε α
  | some a => .ok a
  | none => .error e

/-- The values on their way to the database: the driver's refusal comes before the database's. -/
def OpportunityChanges.store (c : OpportunityChanges) (what : String) :
    Except WriteError StoredChanges := do
  let name ← optionally (fun n => orError (unsendable what) (storedText n)) c.name
  if c.structureId.all fitsBigint ∧ c.gateId.join.all fitsBigint then
    let symbols ← optionally (fun s => orError (wrongForm what) (s.mapM storedText)) c.symbols
    let entryConditions ← optionally
      (fun s => orError (wrongForm what) (s.mapM CheckedCondition.store)) c.entryConditions
    return ⟨name, c.structureId, c.gateId, c.scopeType, c.isActive, symbols, entryConditions⟩
  else .error (wrongForm what)

/-- The row after the update. -/
def StoredChanges.apply (c : StoredChanges) (o : Opportunity) : Opportunity where
  id := o.id
  name := c.name.getD o.name
  structureId := c.structureId.getD o.structureId
  gateId := c.gateId.getD o.gateId
  scopeType := c.scopeType.getD o.scopeType
  isActive := c.isActive.getD o.isActive
  symbols := c.symbols.getD o.symbols
  entryConditions := c.entryConditions.getD o.entryConditions

/-- The check of the merged row, where the patch names a part of what it is about. -/
def StoredChanges.checkMerged (c : StoredChanges) (o : Opportunity) : Except WriteError Unit :=
  if c.scopeType.isSome ∨ c.symbols.isSome then checked (checkScopeSymbols o.scopeType o.symbols)
  else .ok ()

/-- A condition as it is read. -/
structure ConditionRead where
  conditionType : String
  valueText : Option String
  valueNumeric : Option Double
  deriving DecidableEq

/-- What a read answers. -/
structure OpportunityRead where
  id : ℤ
  name : String
  structureId : ℤ
  gateId : Option ℤ
  scopeType : Option ScopeType
  isActive : Bool
  symbols : List String
  entryConditions : List ConditionRead
  structureName : Option String

/-- `get_opportunity_by_id` of a row. -/
def RuleTables.readOpportunity (t : RuleTables) (o : Opportunity) : OpportunityRead where
  id := o.id
  name := o.name
  structureId := o.structureId
  gateId := o.gateId
  scopeType := o.scopeType
  isActive := o.isActive
  symbols := o.symbols.filter fun s => s ≠ ""
  entryConditions := o.entryConditions.map fun c => ⟨c.conditionType, c.valueText, c.valueNumeric⟩
  structureName := (t.structures.get o.structureId).map StructureRow.name

/-- `UPDATE strategy_opportunity`. -/
def RuleTables.patchOpportunity (t : RuleTables) (id : ℤ) (c : StoredChanges) : RuleTables :=
  { t with opportunities := t.opportunities.modify id c.apply fun _ => rfl }

/-- `patch_opportunity`: the row as it is read back, and the tables; what fails is rolled back. -/
def patchOpportunity (id : ℤ) (fields : Json.Value) :
    Except WriteError (OpportunityRead × RuleDb) := do
  let what := "opportunity " ++ toString id
  let changes ← checked (checkOpportunityPatch fields)
  let changes ← changes.store what
  match (db.tables.patchOpportunity id changes).check with
  | .error c => .error (asWriteError detail what .invalid c)
  | .ok after =>
    match after.tables.opportunities.get id with
    | none => .error (.notFound ("No opportunity " ++ toString id ++ "."))
    | some row => do
      changes.checkMerged row
      return (after.tables.readOpportunity row, after)

end Writers

end Strategy
