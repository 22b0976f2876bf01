import BifrostTrade.Strategy.OpportunityWrite

/-!
# Writing trades

`create_instance_strict` and `patch_instance`.  A trade opens under an opportunity that exists; what
a trade's fills, plans and review say is stored with them.
-/

namespace Strategy

open Py Sql
open Portfolio.GateSafety (key checkFields)
open Portfolio (WriteSupport.text WriteSupport.rowId WriteSupport.timestamp)
open Portfolio.Plan (Instant)

/-! ## Moments -/

/-- Microseconds since 1970 in UTC; a datetime without an offset counts as UTC. -/
def utcMicros (t : DateTime) : Instant :=
  ((t.date.toOrdinal : ℤ) - Date.epoch.toOrdinal) * 86400000000 +
    (t.hour * 3600000000 + t.minute * 60000000 + t.second * 1000000 + t.microsecond : ℕ) -
    t.offset.getD 0

example : (DateTime.ofUtcMicros 1758326400000001).map utcMicros = some 1758326400000001 := by
  decide +kernel

/-- What a `timestamptz` column takes: an offset of less than sixteen hours, in whole seconds. -/
def storedMoment (t : DateTime) : Option Instant :=
  if t.offset.all fun o => o.natAbs < 57600000000 ∧ o % 1000000 = 0 then some (utcMicros t)
  else none

/-- A moment that was sent, checked: `NOT NULL`. -/
def requiredMoment (v : Json.Value) (name : String) : Except Failure (Option DateTime) :=
  WriteSupport.timestamp v name false

/-- A text column that may be null, as the driver sends it. -/
def storedLabel (what : String) : Option (List ℕ) → Except WriteError (Option String) :=
  optionally fun points => orError (unsendable what) (storedText points)

section Writers

variable (detail : Detail) (db : RuleDb)

/-- `create_instance_strict`; the sequence gives the id, and `created_at` is the time of the
transaction. -/
def createInstanceStrict (now : Instant) (newId : ℤ)
    (strategyOpportunityId accountId openedAt label : Json.Value) :
    Except WriteError (Trade × RuleDb) := do
  let what := "the trade"
  let opportunityId ← checked
    (required (WriteSupport.rowId strategyOpportunityId "strategy_opportunity_id" false))
  let account ← checked (required (WriteSupport.text accountId "account_id" false none))
  let opened ← checked (requiredMoment openedAt "opened_at")
  let label ← checked (WriteSupport.text label "label" true none)
  if db.tables.opportunities.hasKey opportunityId = false then
    .error (.invalid ("No strategy opportunity " ++ toString opportunityId ++
      "; a trade opens under an existing one."))
  else
    let account ← orError (unsendable what) (storedText account)
    let label ← storedLabel what label
    let opened ← orError (wrongForm what) (opened.bind storedMoment)
    let trade : Trade := ⟨newId, opportunityId, account, opened, label, now⟩
    if db.tables.trades.hasKey newId then
      .error (.conflict ("Cannot write " ++ what ++ ": that value is already used."))
    else
      match ({ db.tables with trades := db.tables.trades.insertOrIgnore trade }.check) with
      | .error c => .error (asWriteError detail what .invalid c)
      | .ok after => return (trade, after)

/-- `INSTANCE_PATCHABLE`. -/
def instancePatchable : List String := ["label", "opened_at", "created_at"]

/-- `NOTES_RETIRED`. -/
def notesRetired : String :=
  "notes was removed in core 0.43.0 (TD-73): a trade's notes live in the Research journal " ++
    "(POST /research/journal/notes with a ref of type 'trade')."

/-- The refusal of a key whose field is gone. -/
def refuseRetired (fields : Json.Value) (name message : String) : Except Failure Unit :=
  match fields with
  | .object members =>
      if (members.lookup (key name)).isSome then .error (.refused message) else .ok ()
  | _ => .ok ()

/-- The columns a patch names, with their checked values. -/
structure TradeChanges where
  label : Option (Option (List ℕ))
  openedAt : Option (Option DateTime)
  createdAt : Option (Option DateTime)

/-- The checks of a patch. -/
def checkTradePatch (fields : Json.Value) : Except Failure TradeChanges := do
  refuseRetired fields "notes" notesRetired
  let fields ← checkFields fields instancePatchable "trade"
  let label ← sent fields "label" fun v => WriteSupport.text v "label" true none
  let openedAt ← sent fields "opened_at" fun v => requiredMoment v "opened_at"
  let createdAt ← sent fields "created_at" fun v => requiredMoment v "created_at"
  return ⟨label, openedAt, createdAt⟩

/-- `patch_instance`: the row, and the tables. -/
def patchInstance (id : ℤ) (fields : Json.Value) : Except WriteError (Trade × RuleDb) := do
  let what := "trade " ++ toString id
  let changes ← checked (checkTradePatch fields)
  let label ← optionally (storedLabel what) changes.label
  let openedAt ← optionally (fun t => orError (wrongForm what) (t.bind storedMoment))
    changes.openedAt
  let createdAt ← optionally (fun t => orError (wrongForm what) (t.bind storedMoment))
    changes.createdAt
  let change (x : Trade) : Trade := { x with
    label := label.getD x.label
    openedAt := openedAt.getD x.openedAt
    createdAt := createdAt.getD x.createdAt }
  match ({ db.tables with trades := db.tables.trades.modify id change fun _ => rfl }.check) with
  | .error c => .error (asWriteError detail what .invalid c)
  | .ok after =>
    match after.tables.trades.get id with
    | none => .error (.notFound ("No trade " ++ toString id ++ "."))
    | some row => return (row, after)

end Writers

end Strategy
