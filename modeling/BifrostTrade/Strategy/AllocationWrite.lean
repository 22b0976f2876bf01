import BifrostTrade.Strategy.OpportunityWrite

/-!
# Writing allocations

`create_allocation`, `update_allocation` and `patch_allocation`, with the memberships that an
allocation's opportunities are listed by, and the settings that name what the daemon runs.
-/

namespace Strategy

open Py Sql
open Py.Json (Members)
open Portfolio.GateSafety (key checkFields joined)
open Portfolio (WriteSupport.text WriteSupport.rowId WriteSupport.integer WriteSupport.number
  WriteSupport.boolean WriteSupport.listValue)

/-! ## Limits -/

/-- `_LIMIT_KEYS`. -/
def limitKeys : List String := ["max_positions", "max_bp_pct"]

/-- The refusal of keys that are no limit. -/
def unknownLimits (limits : Members) : Except Failure Unit :=
  let unknown := (limits.map Prod.fst).filter fun k => k ∉ limitKeys.map key
  if unknown ≠ [] then
    .error (.refused ("Unknown allocation_limits field: " ++
      joined (unknown.mergeSort fun a b => a ≤ b) ++ ". Allowed: max_positions, max_bp_pct."))
  else .ok ()

/-- The refusal of limits that are no object of the two fields. -/
def notLimits {α : Type} : Except Failure α :=
  .error (.refused "allocation_limits must be an object with max_positions and/or max_bp_pct.")

/-- The check of `max_positions`. -/
def checkMaxPositions (v : Json.Value) : Except Failure (Option ℤ) :=
  WriteSupport.integer v "max_positions" true (some 0)

/-- The check of `max_bp_pct`. -/
def checkMaxBpPct (v : Json.Value) : Except Failure (Option Double) :=
  WriteSupport.number v "max_bp_pct" true (some (.fin 0))

/-- `_limits_to_scalars`. -/
def limitsToScalars : Json.Value → Except Failure (Option ℤ × Option Double)
  | .null => .ok (none, none)
  | .object limits => do
      unknownLimits limits
      let maxPositions ← checkMaxPositions (Json.field limits "max_positions")
      let maxBpPct ← checkMaxBpPct (Json.field limits "max_bp_pct")
      return (maxPositions, maxBpPct)
  | _ => notLimits

/-! ## Memberships -/

/-- `INSERT … ON CONFLICT (strategy_allocation_id, strategy_opportunity_id) DO UPDATE SET
sort_order`. -/
def putMembership (t : Table Membership.key) (x : Membership) : Table Membership.key :=
  t.upsert x (fun old => { old with sortOrder := x.sortOrder }) fun _ => rfl

/-- The memberships of an allocation, one after another in the order of the list. -/
def putMemberships (t : Table Membership.key) (allocationId : ℤ) (ids : List ℤ) :
    Table Membership.key :=
  ids.zipIdx.foldl (fun t (id, i) => putMembership t ⟨allocationId, id, i⟩) t

/-- The memberships of an allocation are those of the list and no others. -/
def replaceMemberships (t : Table Membership.key) (allocationId : ℤ) (ids : List ℤ) :
    Table Membership.key :=
  putMemberships (t.delete fun x => x.allocationId = allocationId) allocationId ids

/-! ## The bodies of POST and PUT -/

/-- `AllocationBody` and `AllocationUpdateBody`: every field may be missing or null. -/
structure AllocationBody where
  name : Option (Option (List ℕ))
  strategyOpportunityIds : Option (Option (List ℤ))
  gateSafetyStrategyId : Option (Option ℤ)
  allocationLimits : Option Json.Value
  isActive : Option (Option Bool)

/-- `_gate_id`. -/
def AllocationBody.gateId (body : AllocationBody) : Except Failure (Option ℤ) :=
  WriteSupport.rowId (orNull .int body.gateSafetyStrategyId.join) "gate_safety_strategy_id" true

section Writers

variable (detail : Detail) (db : RuleDb)

/-- `create_allocation`; the sequence gives the id. -/
def createAllocation (newId : ℤ) (body : AllocationBody) :
    Except WriteError (Option (ℤ × RuleDb)) :=
  let name := stripPoints (body.name.join.getD [])
  if name = [] then .error (.valueError "name is required")
  else match body.strategyOpportunityIds with
    | none => .error (.valueError "strategy_opportunity_ids is required")
    | some none => .error (.valueError "strategy_opportunity_ids must be a list")
    | some (some ids) => do
        let gateId ← checked body.gateId
        let (maxPositions, maxBpPct) ← checked (limitsToScalars (body.allocationLimits.getD .null))
        let name ← orError (.raised .valueError) (storedText name)
        return do
          if gateId.all fitsBigint ∧ maxPositions.all fitsInteger ∧ ids.all fitsBigint ∧
              db.tables.allocations.hasKey newId = false then
            let stored : Allocation :=
              ⟨newId, name, gateId, maxPositions, maxBpPct, body.isActive.join.getD true⟩
            let first ← ({ db.tables with
              allocations := db.tables.allocations.insertOrIgnore stored }.check).toOption
            let after ← ({ first.tables with
              memberships := putMemberships first.tables.memberships newId ids }.check).toOption
            return (newId, after)
          else none

/-- The limits that a body names. -/
def AllocationBody.limits (body : AllocationBody) :
    Except Failure (Option (Option ℤ × Option Double)) :=
  optionally limitsToScalars body.allocationLimits

/-- `update_allocation`: an empty body, no row, or what the database refuses is no answer. -/
def updateAllocation (id : ℤ) (body : AllocationBody) : Except WriteError (Option RuleDb) :=
  if body.name.isNone ∧ body.strategyOpportunityIds.isNone ∧ body.gateSafetyStrategyId.isNone ∧
      body.allocationLimits.isNone ∧ body.isActive.isNone then .ok none
  else if body.name.join.map stripPoints = some [] then
    .error (.valueError "name cannot be empty when provided")
  else do
    let gateId ← checked body.gateId
    let limits ← checked body.limits
    let name ← optionally (fun n => orError (.raised .valueError) (storedText (stripPoints n)))
      body.name.join
    let change (a : Allocation) : Allocation :=
      { a with
        name := name.getD a.name
        gateId := if body.gateSafetyStrategyId.isSome then gateId else a.gateId
        maxPositions := (limits.map Prod.fst).getD a.maxPositions
        maxBpPct := (limits.map Prod.snd).getD a.maxBpPct
        isActive := body.isActive.join.getD a.isActive }
    -- no column is written where the body names none of them
    let writes := name.isSome ∨ body.gateSafetyStrategyId.isSome ∨ limits.isSome ∨
      body.isActive.join.isSome
    return do
      if gateId.all fitsBigint ∧ (limits.bind Prod.fst).all fitsInteger ∧
          (writes → db.tables.allocations.hasKey id = true) then
        let first ← ({ db.tables with
          allocations := db.tables.allocations.modify id change fun _ => rfl }.check).toOption
        match body.strategyOpportunityIds with
        | none => return first
        | some ids =>
            if (ids.getD []).all fitsBigint then
              ({ first.tables with
                memberships :=
                  replaceMemberships first.tables.memberships id (ids.getD []) }.check).toOption
            else none
      else none

/-! ## The patch -/

/-- `ALLOCATION_PATCHABLE`. -/
def allocationPatchable : List String :=
  ["name", "gate_safety_strategy_id", "max_positions", "max_bp_pct", "allocation_limits",
    "is_active", "strategy_opportunity_ids"]

/-- The limits of `allocation_limits`, each as a field of its own. -/
def addLimits (fields : Members) : Members → Except Failure Members
  | [] => .ok fields
  | (k, value) :: limits =>
      if (fields.lookup k).isSome then
        .error (.refused (pointsText k ++
          " was sent both on its own and inside allocation_limits; send it once."))
      else addLimits (fields ++ [(k, value)]) limits

/-- `_expand_allocation_limits`. -/
def expandAllocationLimits (fields : Members) : Except Failure Members :=
  match fields.lookup (key "allocation_limits") with
  | none => .ok fields
  | some value => do
      let out := fields.filter fun m => m.1 ≠ key "allocation_limits"
      let limits ← match value with
        | .null => Except.ok (limitKeys.map fun k => (key k, Json.Value.null))
        | .object limits => .ok limits
        | _ => notLimits
      unknownLimits limits
      addLimits out limits

/-- The list of ids, each once. -/
def patchOpportunityIds (value : Json.Value) : Except Failure (List ℤ) := do
  let items ← WriteSupport.listValue value "strategy_opportunity_ids"
  let ids ← items.mapM fun v =>
    required (WriteSupport.rowId v "strategy_opportunity_ids item" false)
  if ids.Nodup then return ids
  else .error (.refused "strategy_opportunity_ids lists an opportunity twice.")

/-- The columns a patch names, with their checked values, and the list. -/
structure AllocationChanges where
  name : Option (List ℕ)
  gateId : Option (Option ℤ)
  maxPositions : Option (Option ℤ)
  maxBpPct : Option (Option Double)
  isActive : Option Bool
  opportunityIds : Option (List ℤ)

/-- The checks of a patch. -/
def checkAllocationPatch (fields : Json.Value) : Except Failure AllocationChanges := do
  let fields ← checkFields fields allocationPatchable "allocation"
  let fields ← expandAllocationLimits fields
  if fields = [] then .error (.refused "Nothing to change: allocation_limits was empty.")
  else
    let name ← sent fields "name" fun v => required (WriteSupport.text v "name" false none)
    let gateId ← sent fields "gate_safety_strategy_id" fun v =>
      WriteSupport.rowId v "gate_safety_strategy_id" true
    let maxPositions ← sent fields "max_positions" checkMaxPositions
    let maxBpPct ← sent fields "max_bp_pct" checkMaxBpPct
    let isActive ← sent fields "is_active" fun v => WriteSupport.boolean v "is_active"
    let opportunityIds ← sent fields "strategy_opportunity_ids" patchOpportunityIds
    return ⟨name, gateId, maxPositions, maxBpPct, isActive, opportunityIds⟩

/-- The row after the update. -/
def AllocationChanges.apply (c : AllocationChanges) (name : Option String) (a : Allocation) :
    Allocation where
  id := a.id
  name := name.getD a.name
  gateId := c.gateId.getD a.gateId
  maxPositions := c.maxPositions.getD a.maxPositions
  maxBpPct := c.maxBpPct.getD a.maxBpPct
  isActive := c.isActive.getD a.isActive

/-- What a read answers. -/
structure AllocationRead where
  id : ℤ
  name : String
  gateId : Option ℤ
  maxPositions : Option ℤ
  maxBpPct : Option Double
  isActive : Bool
  strategyOpportunityIds : List ℤ
  /-- The two limits that are set; none where neither is. -/
  allocationLimits : Option (List (String × Json.Value))

/-- `array_agg(strategy_opportunity_id ORDER BY sort_order)`. -/
def RuleTables.opportunityIds (t : RuleTables) (id : ℤ) : List ℤ :=
  (sortedBy Membership.sortOrder
    (t.memberships.rows.filter fun x => x.allocationId = id)).map Membership.opportunityId

/-- `_allocation_row_to_dict` of a row. -/
def RuleTables.readAllocation (t : RuleTables) (a : Allocation) : AllocationRead :=
  let limits : List (String × Json.Value) :=
    (a.maxPositions.toList.map fun n => ("max_positions", .int n)) ++
      a.maxBpPct.toList.map fun x => ("max_bp_pct", .float x)
  { id := a.id, name := a.name, gateId := a.gateId, maxPositions := a.maxPositions,
    maxBpPct := a.maxBpPct, isActive := a.isActive
    strategyOpportunityIds := t.opportunityIds a.id
    allocationLimits := if limits = [] then none else some limits }

/-- The memberships of a patch, inserted one after another; the list has no id twice. -/
def insertMemberships (t : Table Membership.key) (allocationId : ℤ) (ids : List ℤ) :
    Table Membership.key :=
  ids.zipIdx.foldl (fun t (id, i) => t.insertOrIgnore ⟨allocationId, id, i⟩) t

/-- `patch_allocation`: the row as it is read back, and the tables; what fails is rolled back. -/
def patchAllocation (id : ℤ) (fields : Json.Value) :
    Except WriteError (AllocationRead × RuleDb) := do
  let what := "allocation " ++ toString id
  let changes ← checked (checkAllocationPatch fields)
  let name ← optionally (fun n => orError (unsendable what) (storedText n)) changes.name
  if changes.gateId.join.all fitsBigint = false ∨
      changes.maxPositions.join.all fitsInteger = false then
    .error (wrongForm what)
  else
    match ({ db.tables with
        allocations :=
          db.tables.allocations.modify id (changes.apply name) fun _ => rfl }.check) with
    | .error c => .error (asWriteError detail what .invalid c)
    | .ok first =>
      match first.tables.allocations.get id with
      | none => .error (.notFound ("No allocation " ++ toString id ++ "."))
      | some row =>
        match changes.opportunityIds with
        | none => return (first.tables.readAllocation row, first)
        | some ids =>
            if ids.all fitsBigint = false then .error (wrongForm what)
            else
              match ({ first.tables with
                  memberships := insertMemberships
                    (first.tables.memberships.delete fun x => x.allocationId = id)
                    id ids }.check) with
              | .error c => .error (asWriteError detail what .invalid c)
              | .ok after => return (after.tables.readAllocation row, after)

/-! ## What the daemon runs -/

/-- `_ACTIVE_COLUMNS`. -/
inductive ActiveColumn where
  | structureId
  | gateId
  | allocationId
  deriving DecidableEq

/-- The name of the column. -/
def ActiveColumn.name : ActiveColumn → String
  | .structureId => "active_strategy_structure_id"
  | .gateId => "active_gate_safety_strategy_id"
  | .allocationId => "active_strategy_allocation_id"

/-- The table a column points at. -/
def ActiveColumn.table : ActiveColumn → String
  | .structureId => "strategy_structure"
  | .gateId => "gate_safety_strategy"
  | .allocationId => "strategy_allocation"

/-- The row that the column may refer to is there. -/
def RuleTables.hasActive (t : RuleTables) : ActiveColumn → ℤ → Bool
  | .structureId, id => t.structures.hasKey id
  | .gateId, id => t.gates.hasKey id
  | .allocationId, id => t.allocations.hasKey id

/-- The id in a column. -/
def ActiveRefs.get (s : ActiveRefs) : ActiveColumn → Option ℤ
  | .structureId => s.structureId
  | .gateId => s.gateId
  | .allocationId => s.allocationId

/-- `_ACTIVE_REF_CHECKS`, in its order. -/
def activeRefChecks : List ActiveColumn := [.gateId, .structureId, .allocationId]

/-- `validate_settings_active_refs` of the columns that are written. -/
def validateSettingsActiveRefs (t : RuleTables) (columns : List ActiveColumn)
    (values : ActiveRefs) : Except WriteError Unit :=
  activeRefChecks.forM fun c =>
    match (if c ∈ columns then values.get c else none) with
    | none => .ok ()
    | some id =>
        if t.hasActive c id then .ok ()
        else .error (.valueError (c.name ++ "=" ++ toString id ++ " does not exist in " ++ c.table))

/-- The settings with the columns that are written. -/
def ActiveRefs.write (s : ActiveRefs) (columns : List ActiveColumn) (values : ActiveRefs) :
    ActiveRefs where
  structureId := if .structureId ∈ columns then values.structureId else s.structureId
  gateId := if .gateId ∈ columns then values.gateId else s.gateId
  allocationId := if .allocationId ∈ columns then values.allocationId else s.allocationId

/-- `write_active_strategy_and_gates`: every column, or those of `only`; whether it wrote. -/
def writeActiveStrategyAndGates (values : ActiveRefs) (only : Option (List ActiveColumn)) :
    Except WriteError (Option RuleDb) :=
  let columns := only.getD [.structureId, .gateId, .allocationId]
  if columns = [] then .ok (some db)
  else do
    validateSettingsActiveRefs db.tables columns values
    return ({ db.tables with settings := db.tables.settings.write columns values }.check).toOption

/-- `deactivate_structure`: whether the row was there. -/
def deactivateStructure (id : ℤ) : Option RuleDb :=
  if db.tables.structures.hasKey id = false then none
  else
    let t := { db.tables with
      structures := db.tables.structures.modify id (fun s => { s with isActive := false }) fun _ =>
        rfl }
    ({ t with settings := { t.settings with
      structureId := forget id t.settings.structureId } }.check).toOption

end Writers

end Strategy
