import BifrostTrade.Lib.Python
import BifrostTrade.Lib.Uuid
import BifrostTrade.Persistence.ExecutionTables

/-!
# Execution writers

`portfolio/reader/accounts.py`: the operations that write raw executions and their attribution to
trades.  `none` (or an error) is a call that was refused and rolled back.  The raw rows and the
attribution are in two databases, and the calls that write both commit the raw rows first: a call
may end between the commits (`goldenOnly`).  The columns that no writer here looks at are left
out.
-/

namespace Portfolio

open Py Persistence

/-! ## Signed quantity -/

/-- The spellings of a sale. -/
def sellSides : List String := ["SELL", "SLD", "S"]

/-- `is_sell_side`. -/
def isSellSide (side : Option String) : Bool := upper (trimSpaces (textOrEmpty side)) ∈ sellSides

/-- `signed_qty`: the sign comes from the side alone. -/
def signedQty (side : Option String) (quantity : Option Double) : Option Double :=
  quantity.map fun q => if isSellSide side then q.abs.neg else q.abs

/-- `_normalized_signed_qty_from_raw`. -/
def normalizedSignedQty (r : RawRow) : Double := (signedQty r.side r.quantity).getD (.fin 0)

example : signedQty (some " sld") (some (.fin 3)) = some (.fin (-3)) := by decide +kernel

/-! ## Rows by execution id -/

/-- `_JOURNAL_ID_OFFSET`. -/
def journalIdOffset : ℤ := 1000000000

/-- `_raw_table_pk_for_account_executions_id`. -/
def rawTablePk (accountExecutionsId : ℤ) : RawTable × ℤ :=
  if 0 < accountExecutionsId then (.flex, accountExecutionsId)
  else if accountExecutionsId ≤ -journalIdOffset then
    (.journal, -accountExecutionsId - journalIdOffset)
  else (.tws, -accountExecutionsId)

/-- An id a raw table's sequence gives out; the encoding keeps TWS ids under the offset. -/
abbrev SeqId := {n : ℤ // 0 < n ∧ n < journalIdOffset}

/-- The raw row of an execution. -/
def fillRow (db : ExecutionDb) (accountExecutionsId : ℤ) : Option RawRow :=
  (db.raw (rawTablePk accountExecutionsId).1).rows.find? fun r =>
    r.id = (rawTablePk accountExecutionsId).2

/-- A raw table replaced. -/
def withRaw (db : ExecutionDb) (t : RawTable) (rows : Sql.Store (RawRow.clash t)) : ExecutionDb :=
  { db with raw := fun t' => if h : t' = t then h ▸ rows else db.raw t' }

/-- A new raw row; `none` where it clashes. -/
def insertRaw (db : ExecutionDb) (t : RawTable) (r : RawRow) : Option ExecutionDb :=
  ((db.raw t).insert? r).map (withRaw db t)

/-- `UPDATE` of the raw row of an execution. -/
def updateRaw (db : ExecutionDb) (accountExecutionsId : ℤ) (f : RawRow → RawRow) :
    Option ExecutionDb :=
  let place := rawTablePk accountExecutionsId
  ((db.raw place.1).update? (fun r => r.id = place.2) f).map (withRaw db place.1)

/-! ## Attribution -/

/-- A field of a body. -/
inductive Field (α : Type) where
  | absent
  | null
  | value (a : α)
  deriving DecidableEq

namespace Field

variable {α : Type}

/-- Whether the body has the field. -/
def present : Field α → Bool
  | absent => false
  | _ => true

/-- A column after an `UPDATE` that sets it where the field is there. -/
def column : Field α → Option α → Option α
  | absent, old => old
  | null, _ => none
  | value a, _ => some a

end Field

/-- A field that should hold an id; `notInteger` is a value `int()` does not take. -/
inductive BodyId where
  | absent
  | null
  | notInteger
  | id (n : ℤ)
  deriving DecidableEq

/-- The id, where one is given. -/
def BodyId.toOption : BodyId → Option ℤ
  | .id n => some n
  | _ => none

/-- An item of `fill_splits`. -/
inductive SplitItem where
  | notDict
  | dict (tradeId : BodyId) (quantity : Value)
  deriving DecidableEq

/-- The field `fill_splits`. -/
inductive SplitsField where
  | absent
  | null
  | notList
  | list (items : List SplitItem)
  deriving DecidableEq

/-- `_instance_problem`: why the trade cannot take a fill of the account. -/
def instanceProblem (db : ExecutionDb) (instanceId : ℤ) (accountId : String)
    (opportunityId : Option ℤ) : Option String :=
  match db.trades.rows.find? fun t => t.tradeId = instanceId with
  | none => some ("No trade " ++ toString instanceId ++ ".")
  | some t =>
      if strip t.accountId ≠ accountId then
        some ("Trade " ++ toString instanceId ++ " belongs to account " ++ t.accountId ++
          ", and the fill to " ++ accountId ++ ".")
      else match opportunityId with
        | none => none
        | some o =>
            if t.strategyOpportunityId ≠ o then
              some ("Trade " ++ toString instanceId ++ " is under opportunity " ++
                toString t.strategyOpportunityId ++ ", not " ++ toString o ++ ".")
            else none

/-- `_direct_instance`: whether the body touches the whole-fill attribution, its trade and its
opportunity; `none` where an id is not an integer. -/
def directInstance (tradeId strategyOpportunityId : BodyId) :
    Option (Bool × Option ℤ × Option ℤ) :=
  if tradeId = .notInteger ∨ strategyOpportunityId = .notInteger then none
  else some (tradeId ≠ .absent, tradeId.toOption, strategyOpportunityId.toOption)

/-- `_set_whole_attribution`. -/
def setWholeAttribution (db : ExecutionDb) (k : FillKey) : Option ℤ → Option ExecutionDb
  | none => some (db.deleteAttributions (ExecutionDb.isWholeOf k))
  | some instanceId => db.upsertWhole k instanceId

/-- The trade and the quantity of a split, when the writer takes them. -/
def parseSplit (db : ExecutionDb) (accountId : String) : SplitItem → Option (ℤ × ℚ)
  | .dict (.id t) q =>
      match q.finite with
      | none => none
      | some x => if x = 0 ∨ instanceProblem db t accountId none ≠ none then none else some (t, x)
  | _ => none

/-- The relative tolerance of a sum of splits. -/
def splitTolerance : ℚ := 1 / 100000

/-- `abs(total - expected) > 1e-5 * max(1.0, abs(expected))`; no total is greater off an infinite
quantity, or off one that is not a number. -/
def sumMismatch (total : ℚ) : Double → Bool
  | .fin expected => splitTolerance * max 1 |expected| < |total - expected|
  | _ => false

/-- The inserts of `_apply_fill_splits_on_cursor`. -/
def insertSplits (k : FillKey) (db : ExecutionDb) (inserts : List (ℤ × ℚ)) : Option ExecutionDb :=
  inserts.foldlM (fun db s => db.insertAttribution ⟨k.1, k.2, s.1, some s.2⟩) db

/-- `_apply_fill_splits_on_cursor`. -/
def applyFillSplits (db : ExecutionDb) (accountExecutionsId : ℤ) (items : List SplitItem) :
    Option ExecutionDb :=
  match fillRow db accountExecutionsId with
  | none => none
  | some r =>
      let k := r.fillKey
      if k.2 = "" then none
      else match items.mapM (parseSplit db k.1) with
        | none => none
        | some inserts =>
            if ¬ (inserts.map Prod.fst).Nodup then none
            else if inserts ≠ [] ∧ sumMismatch (inserts.map Prod.snd).sum (normalizedSignedQty r)
            then none
            else
              let cleared := db.deleteAttributions (ExecutionDb.isSplitOf k)
              if inserts = [] then some cleared
              else insertSplits k (cleared.deleteAttributions (ExecutionDb.isWholeOf k)) inserts

/-- `_drop_attribution_if_last`: the splits removed are counted. -/
def dropAttributionIfLast (db : ExecutionDb) (k : FillKey) : ExecutionDb × ℕ :=
  let stored (t : RawTable) : Bool :=
    (db.raw t).rows.any fun r => r.accountId = some k.1 ∧ r.execId = some k.2
  if k.2 = "" ∨ stored .tws ∨ stored .flex ∨ stored .journal then (db, 0)
  else (db.deleteAttributions fun x => x.key = k, (db.splitsAt k).length)

/-! ## The writers -/

/-- `replace_execution_fill_splits`. -/
def replaceExecutionFillSplits (db : ExecutionDb) (accountExecutionsId : ℤ) :
    SplitsField → Option ExecutionDb
  | .list items => applyFillSplits db accountExecutionsId items
  | .notList => none
  | _ => some db

/-- The body of a hand insert. -/
structure InsertBody where
  accountId : Option String
  execId : Option String
  side : Option String
  quantity : Option Double
  price : Option Double
  source : Option String
  tradeId : BodyId
  strategyOpportunityId : BodyId
  fillSplits : SplitsField

/-- `s.strip() or default`. -/
def stripOr (default : String) (s : Option String) : String :=
  if strip (textOrEmpty s) = "" then default else strip (textOrEmpty s)

/-- The execution id given by hand, or one made up from `uuidHex`. -/
def InsertBody.newExecId (body : InsertBody) (uuidHex : UuidHex) : String :=
  stripOr ("manual_" ++ uuidHex.hex) body.execId

/-- The raw row of a hand insert under the id `seqId` of the table's sequence. -/
def InsertBody.row (body : InsertBody) (seqId : SeqId) (uuidHex : UuidHex) : RawRow where
  id := seqId.1
  accountId := some (textOrEmpty body.accountId)
  execId := some (body.newExecId uuidHex)
  side := some (upper (strip (textOrEmpty body.side)))
  quantity := body.quantity
  source := some (stripOr "manual" body.source)
  tradeId := none

/-- The table that the source names. -/
def InsertBody.table (body : InsertBody) : RawTable :=
  if stripOr "manual" body.source = "journal_closed" then .journal else .tws

/-- The execution id under which a hand insert is found again. -/
def InsertBody.newId (body : InsertBody) (seqId : SeqId) : ℤ :=
  if body.table = .journal then -(journalIdOffset + seqId.1) else -seqId.1

/-- The fill a hand insert attributes. -/
def InsertBody.wholeKey (body : InsertBody) (uuidHex : UuidHex) : FillKey :=
  (strip (textOrEmpty body.accountId), body.newExecId uuidHex)

/-- `insert_one_execution`. -/
def insertOneExecution (db : ExecutionDb) (seqId : SeqId) (uuidHex : UuidHex)
    (body : InsertBody) : Option (ExecutionDb × ℤ) :=
  if body.quantity = none ∨ body.price = none then none
  else match directInstance body.tradeId body.strategyOpportunityId with
    | none => none
    | some (_, tradeId, opportunityId) =>
        if tradeId = none ∧ opportunityId ≠ none then none
        else
          let k := body.wholeKey uuidHex
          let newId := body.newId seqId
          (insertRaw db body.table (body.row seqId uuidHex)).bind fun db =>
          (match tradeId with
            | none => some db
            | some t =>
                if instanceProblem db t k.1 opportunityId ≠ none then none
                else setWholeAttribution db k (some t)).bind fun db =>
          (match body.fillSplits with
            | .list items => applyFillSplits db newId items
            | .notList => none
            | _ => some db).map fun db => (db, newId)

/-- The body of an update. -/
structure UpdateBody where
  accountId : Field String
  side : Field String
  quantity : Field Double
  source : Field String
  /-- Whether another column of the raw row is sent. -/
  otherColumns : Bool
  /-- Whether a commission, realized P&L or currency is sent. -/
  commission : Bool
  tradeId : BodyId
  strategyOpportunityId : BodyId
  fillSplits : SplitsField

/-- Whether the raw row is updated. -/
def UpdateBody.setsColumns (body : UpdateBody) : Bool :=
  body.accountId.present ∨ body.side.present ∨ body.quantity.present ∨ body.source.present ∨
    body.otherColumns

/-- The columns of the raw row that the body sets. -/
def UpdateBody.edit (body : UpdateBody) (r : RawRow) : RawRow :=
  { r with
    accountId := body.accountId.column r.accountId
    side := body.side.column r.side
    quantity := body.quantity.column r.quantity
    source := body.source.column r.source }

/-- The account the fill is on after the update, as the writer takes it: a null is the old one. -/
def UpdateBody.newAccount (body : UpdateBody) (oldAccount : String) : String :=
  match body.accountId with
  | .value a => strip a
  | _ => oldAccount

/-- A row without an execution id gets one when its commission is sent. -/
def manualExecId (accountExecutionsId : ℤ) (r : RawRow) : RawRow :=
  if strip (textOrEmpty r.execId) = "" then
    { r with execId := some ("manual_" ++ toString accountExecutionsId) }
  else r

/-- Splits that are sent, or that stand and are not sent, exclude a trade for the whole fill. -/
def SplitsField.excludesWhole (db : ExecutionDb) (k : FillKey) : SplitsField → Bool
  | .list items => items ≠ []
  | .absent => db.splitsAt k ≠ []
  | _ => false

/-- The refusals of `update_one_execution` before it sets the whole-fill attribution. -/
def UpdateBody.wholeProblem (body : UpdateBody) (db : ExecutionDb) (k : FillKey)
    (opportunityId : Option ℤ) : Option ℤ → Bool
  | none => false
  | some t =>
      (instanceProblem db t k.1 opportunityId).isSome || body.fillSplits.excludesWhole db k

/-- `update_one_execution`. -/
def updateOneExecution (db : ExecutionDb) (accountExecutionsId : ℤ) (body : UpdateBody) :
    Option ExecutionDb :=
  let direct := (directInstance body.tradeId body.strategyOpportunityId).getD (true, none, none)
  if direct.2.1 = none ∧ direct.2.2 ≠ none then none
  else match fillRow db accountExecutionsId with
    | none => none
    | some r =>
        let k := r.fillKey
        let newAccount := body.newAccount k.1
        -- the attribution is under the old account and would be orphaned
        if newAccount ≠ k.1 ∧ k.2 ≠ "" ∧ (db.splitsAt k ≠ [] ∨ db.wholeAt k ≠ []) then none
        else if ¬ body.setsColumns ∧ ¬ body.commission ∧ body.fillSplits = .absent ∧ ¬ direct.1
        then none
        else
          (if body.setsColumns then updateRaw db accountExecutionsId body.edit
            else some db).bind fun db =>
          (match body.fillSplits with
            | .list items => applyFillSplits db accountExecutionsId items
            | .notList => none
            | _ => some db).bind fun db =>
          (if direct.1 then
            if k.2 = "" ∨ body.wholeProblem db (newAccount, k.2) direct.2.2 direct.2.1 then none
            else setWholeAttribution db (newAccount, k.2) direct.2.1
            else some db).bind fun db =>
          if body.commission then
            updateRaw db accountExecutionsId (manualExecId accountExecutionsId)
          else some db

/-- How a patch or a strict delete is refused. -/
inductive WriteError where
  | invalid (message : String)
  | notFound (message : String)
  | conflict (message : String)
  /-- The database refused. -/
  | failed
  deriving DecidableEq

/-- The accepted fields of a patch; the ids are whole numbers of one or more. -/
structure PatchFields where
  tradeId : Field ℤ
  strategyOpportunityId : Field ℤ
  fillSplits : Option (List SplitItem)

/-- A field that may be null, as an optional value. -/
def Field.toOption {α : Type} : Field α → Option α
  | .value a => some a
  | _ => none

/-- The refusal of an opportunity without a trade. -/
def opportunityOnly : String :=
  "A fill is attributed to a trade (trade_id); its opportunity is the trade's. Send trade_id."

/-- `ws.plural`. -/
def plural (n : ℕ) (one many : String) : String :=
  toString n ++ " " ++ if n = 1 then one else many

/-- `patch_execution`; splits the database refuses are reported as splits the writer refuses. -/
def patchExecution (db : ExecutionDb) (accountExecutionsId : ℤ) (fields : PatchFields) :
    Except WriteError ExecutionDb :=
  let instanceId := fields.tradeId.toOption
  let opportunityId := fields.strategyOpportunityId.toOption
  if (fields.fillSplits.getD []).any (· = .notDict) then
    .error (.invalid "fill_splits must be a list of \x7btrade_id, quantity\x7d.")
  else if instanceId = none ∧ opportunityId ≠ none then .error (.invalid opportunityOnly)
  else if fields.fillSplits.getD [] ≠ [] ∧ instanceId ≠ none then
    .error (.invalid ("A fill is attributed one way or the other: send fill_splits, " ++
      "or trade_id, not both."))
  else match fillRow db accountExecutionsId with
    | none => .error (.notFound ("No execution " ++ toString accountExecutionsId ++ "."))
    | some r =>
        let k := r.fillKey
        if k.2 = "" ∧ (fields.tradeId.present ∨ fields.fillSplits.isSome) then
          .error (.invalid ("Execution " ++ toString accountExecutionsId ++
            " has no exec_id; it cannot be attributed."))
        else match instanceId.bind fun t => instanceProblem db t k.1 opportunityId with
          | some problem => .error (.invalid problem)
          | none =>
              if instanceId.isSome ∧ fields.fillSplits = none ∧ db.splitsAt k ≠ [] then
                .error (.conflict ("This fill is split across " ++
                  plural (db.splitsAt k).length "trade" "trades" ++
                  "; send fill_splits: [] with the trade to replace the split."))
              else
                match (match fields.fillSplits with
                  | none => some db
                  | some items => applyFillSplits db accountExecutionsId items) with
                | none =>
                    .error (.invalid ("fill_splits must name distinct trades of account " ++ k.1 ++
                      ", each with a non-zero quantity, adding up to the fill's quantity."))
                | some db =>
                    if fields.tradeId.present then
                      match setWholeAttribution db k instanceId with
                      | none => .error .failed
                      | some db => .ok db
                    else .ok db

/-- What `patch_execution` returns of a split. -/
structure SplitView where
  tradeId : ℤ
  quantity : ℚ
  strategyOpportunityId : Option ℤ
  tradeLabel : Option String
  deriving DecidableEq

/-- What `patch_execution` returns. -/
structure AttributionView where
  accountExecutionsId : ℤ
  accountId : String
  strategyOpportunityId : Option ℤ
  tradeId : Option ℤ
  fillSplits : List SplitView
  deriving DecidableEq

/-- `_execution_attribution`. -/
def executionAttribution (db : ExecutionDb) (accountExecutionsId : ℤ) (k : FillKey) :
    AttributionView :=
  let trade (x : TradeExecutionRow) : Option TradeRow :=
    db.trades.rows.find? fun t => t.tradeId = x.tradeId
  let whole := (db.wholeAt k).getLast?
  { accountExecutionsId
    accountId := k.1
    strategyOpportunityId := (whole.bind trade).map TradeRow.strategyOpportunityId
    tradeId := whole.map TradeExecutionRow.tradeId
    fillSplits := (sortedBy TradeExecutionRow.tradeId (db.splitsAt k)).map fun x =>
      { tradeId := x.tradeId
        quantity := x.splitQuantity.getD 0
        strategyOpportunityId := (trade x).map TradeRow.strategyOpportunityId
        tradeLabel := ((trade x).bind TradeRow.label).bind fun s =>
          if strip s = "" then none else some (strip s) } }

/-- The raw row of an execution deleted, and the attribution with the last row of the fill. -/
def deleteRaw (db : ExecutionDb) (accountExecutionsId : ℤ) (r : RawRow) : ExecutionDb × ℕ :=
  let place := rawTablePk accountExecutionsId
  dropAttributionIfLast
    (withRaw db place.1 ((db.raw place.1).delete fun s => s.id = place.2)) r.fillKey

/-- `delete_one_execution`. -/
def deleteOneExecution (db : ExecutionDb) (accountExecutionsId : ℤ) : Option ExecutionDb :=
  (fillRow db accountExecutionsId).map fun r => (deleteRaw db accountExecutionsId r).1

/-- `delete_execution_strict`, with the number of option/stock links that name the execution; the
splits removed are counted. -/
def deleteExecutionStrict (db : ExecutionDb) (links : ℕ) (accountExecutionsId : ℤ) :
    Except WriteError (ExecutionDb × ℕ) :=
  match fillRow db accountExecutionsId with
  | none => .error (.notFound ("No execution " ++ toString accountExecutionsId ++ "."))
  | some r =>
      if links ≠ 0 then
        .error (.conflict ("This execution is in " ++
          plural links "option/stock link" "option/stock links" ++ "; unlink it first."))
      else .ok (deleteRaw db accountExecutionsId r)

/-! ## Batch import -/

/-- A row of an import; `seqId` is the id the table's sequence would give it. -/
structure ImportRow where
  seqId : SeqId
  accountId : Option String
  execId : Option String
  side : Option String
  quantity : Option Double
  source : Option String
  tradeId : Option String

/-- The table that the source names. -/
def ImportRow.table (r : ImportRow) : RawTable :=
  if r.source = some "flex_trades" then .flex
  else if r.source = some "journal_closed" then .journal
  else .tws

/-- The execution id a row is stored under: a Flex row without one is named by its trade. -/
def ImportRow.storedExecId (r : ImportRow) : Option String :=
  if strip (textOrEmpty r.execId) ≠ "" then r.execId
  else if r.source = some "flex_trades" ∧ textOrEmpty r.accountId ≠ "" ∧ textOrEmpty r.tradeId ≠ ""
  then some ("flex_" ++ textOrEmpty r.accountId ++ "_" ++ textOrEmpty r.tradeId)
  else none

/-- The raw row of an import row. -/
def ImportRow.row (r : ImportRow) : RawRow where
  id := r.seqId.1
  accountId := r.accountId
  execId := r.storedExecId
  side := r.side
  quantity := r.quantity
  source := r.source
  tradeId := r.tradeId

/-- A stored row with every column but its id taken from an import row. -/
def ImportRow.rowOver (r : ImportRow) (s : RawRow) : RawRow := { r.row with id := s.id }

@[simp] theorem execId_rowOver (r : ImportRow) (s : RawRow) :
    (r.rowOver s).execId = r.storedExecId := by
  simp only [ImportRow.rowOver, ImportRow.row]

/-- Whether the table holds the execution id of an import row. -/
def ImportRow.stored (r : ImportRow) (db : ExecutionDb) : Bool :=
  r.storedExecId.isSome ∧ (db.raw r.table).rows.any fun s => s.execId = r.storedExecId

/-- One row of `write_account_executions_to_db`: Flex replaces the row stored under its execution
id, the other tables keep it. -/
def writeImportRow (db : ExecutionDb) (r : ImportRow) : Option ExecutionDb :=
  if r.stored db then
    if r.table = .flex then
      ((db.raw r.table).update? (fun s => s.execId = r.storedExecId) r.rowOver).map
        (withRaw db r.table)
    else some db
  else insertRaw db r.table r.row

/-- `write_account_executions_to_db`. -/
def writeAccountExecutionsToDb (db : ExecutionDb) (rows : List ImportRow) : Option ExecutionDb :=
  rows.foldlM writeImportRow db

/-! ## Steps -/

/-- A call of a writer, or any change of the trades that the foreign key lets through.
`goldenOnly` is a call that ends after `golden.commit()` and before the commit of the attribution,
which is rolled back. -/
inductive ExecutionEvent where
  | insert (seqId : SeqId) (uuidHex : UuidHex) (body : InsertBody)
  | update (accountExecutionsId : ℤ) (body : UpdateBody)
  | patch (accountExecutionsId : ℤ) (fields : PatchFields)
  | replaceSplits (accountExecutionsId : ℤ) (bodyAllocations : SplitsField)
  | delete (accountExecutionsId : ℤ)
  | deleteStrict (links : ℕ) (accountExecutionsId : ℤ)
  | importRows (rows : List ImportRow)
  | setTrades (trades : Sql.Table TradeRow.tradeId)
  | goldenOnly (call : ExecutionEvent)

/-- The trades replaced, unless an attribution names one that goes or changes account. -/
def setTrades (db : ExecutionDb) (trades : Sql.Table TradeRow.tradeId) : Option ExecutionDb :=
  if h : ∀ x ∈ db.tradeExecution.rows, x.Allowed trades then
    some { db with trades, allowed := h }
  else none

/-- The tables a call commits; `none` where it is refused. -/
def attempt (db : ExecutionDb) : ExecutionEvent → Option ExecutionDb
  | .insert seqId uuidHex body => (insertOneExecution db seqId uuidHex body).map Prod.fst
  | .update id body => updateOneExecution db id body
  | .patch id fields => (patchExecution db id fields).toOption
  | .replaceSplits id allocations => replaceExecutionFillSplits db id allocations
  | .delete id => deleteOneExecution db id
  | .deleteStrict links id => (deleteExecutionStrict db links id).toOption.map Prod.fst
  | .importRows rows => writeAccountExecutionsToDb db rows
  | .setTrades trades => setTrades db trades
  | .goldenOnly call => (attempt db call).map fun db' => { db with raw := db'.raw }

/-- A refused call leaves the tables as they are. -/
def executionStep (db : ExecutionDb) (e : ExecutionEvent) : ExecutionDb := (attempt db e).getD db

/-! ## A split fill -/

/-- Three trades of one account. -/
def sampleTrades : Sql.Table TradeRow.tradeId where
  rows := [⟨1, "U1", 10, none⟩, ⟨2, "U1", 10, none⟩, ⟨3, "U1", 10, none⟩]
  nodup := by decide

/-- The first id of a sequence, and a UUID. -/
def sampleSeqId : SeqId := ⟨1, by decide⟩

/-- A random id. -/
def sampleUuid : UuidHex := .ofDigits fun _ => 7

/-- Two shares bought, split over the first two trades. -/
def sampleSplitFill : InsertBody where
  accountId := some "U1"
  execId := some "e1"
  side := some "BUY"
  quantity := some (.fin 2)
  price := some (.fin 100)
  source := none
  tradeId := .absent
  strategyOpportunityId := .absent
  fillSplits := .list [.dict (.id 1) (.number (.fin 1)), .dict (.id 2) (.number (.fin 1))]

example : (attempt ExecutionDb.empty
    (.insert sampleSeqId sampleUuid sampleSplitFill)).isNone := by decide +kernel

end Portfolio
