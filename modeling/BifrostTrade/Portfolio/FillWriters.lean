import BifrostTrade.Portfolio.Commissions
import BifrostTrade.Portfolio.GatewayFills
import BifrostTrade.Portfolio.InstanceState

/-!
# The two writers of fills

`TradingDaemonSink.write_account_executions` and `write_account_executions_to_db` on the rows of
gateway fills, with every value a row may have and every column of the raw tables, each of the type
that `brokerage_ddl.py` gives it.
-/

namespace Portfolio.FillWriters

open Py Persistence Commissions GatewayFills
open InstanceState (dropDashes twsSources)
open Snapshot (strikeDigits)

/-! ## Keys of options -/

/-- `(value or "").strip()`; `none` where it raises. -/
def stripOrEmpty : PayloadValue → Option String
  | .text s => some (strip s)
  | v => if v.truthy then none else some ""

/-- The parts of an option's key, the strike as `float` gives it. -/
structure OptFields where
  symKey : String
  expKey : String
  strikeKey : Option Double
  rightKey : String
  deriving DecidableEq

/-- The expiry of `execution_opt_fields`: a number as an integer, else the text without dashes. -/
def expiryKey : PayloadValue → Option String
  | .bool b => some (if b then "1" else "0")
  | .int n => (PayloadValue.int n).toDouble.map fun _ => toString n
  | .float (.fin x) => (Double.fin x).toInt.map toString
  | v => (stripOrEmpty v).map dropDashes

/-- The strike of `execution_opt_fields`: of what `float` raises only the overflow of an integer is
not caught. -/
def strikeKey : PayloadValue → Option (Option Double)
  | .int n => (PayloadValue.int n).toDouble.map some
  | v => some v.toDouble

/-- The right of `execution_opt_fields`, cut to one letter. -/
def rightKey (right : String) : String :=
  if 1 < right.toList.length then
    if right.toList.head? = some 'C' then "C"
    else if right.toList.head? = some 'P' then "P"
    else String.ofList (right.toList.take 1)
  else right

/-- `execution_opt_fields`; `none` where it raises. -/
def executionOptFields (symbol expiry strike optionRight : PayloadValue) : Option OptFields :=
  (stripOrEmpty symbol).bind fun symKey =>
  (expiryKey expiry).bind fun expKey =>
  (strikeKey strike).bind fun strikeKey =>
  (stripOrEmpty optionRight).map fun right =>
    { symKey, expKey, strikeKey, rightKey := rightKey (upper right) }

/-- `int(round(strike * 1000.0))`; `none` where it raises. -/
def strikeMilli : Double → Option ℤ
  | .fin x =>
      match nearest (x * 1000) with
      | .fin y => some (Py.round y)
      | _ => none
  | _ => none

/-- `legacy_tws_local_symbol`. -/
def legacyTwsLocalSymbol (symKey expKey : String) (strikeKey : Double) (rightKey : String) :
    Option String :=
  let digits := expKey.toList.filter isDigit
  let yymmdd :=
    if 8 ≤ digits.length then (digits.take 8).drop 2 else digits.drop (digits.length - 6)
  (strikeMilli strikeKey).bind fun milli =>
    if yymmdd = [] then none
    else some (symKey ++ "  " ++ String.ofList yymmdd ++ rightKey ++ strikeDigits milli)

/-- `opt_key`, the strike as a float prints. -/
def optKey (symbol expiry : String) (strike : Option Double) (right : String) : String :=
  symbol ++ "|OPT|" ++ expiry ++ "|" ++ (strike.map reprFloat).getD "" ++ "|" ++ right

/-- The key of a TWS row with these parts, where none is missing. -/
def OptFields.twsKey (f : OptFields) : Option String :=
  if f.symKey = "" ∨ f.expKey = "" ∨ f.rightKey = "" then none
  else f.strikeKey.bind fun k =>
    (legacyTwsLocalSymbol f.symKey f.expKey k f.rightKey).map fun localSymbol =>
      optKey localSymbol f.expKey (some k) f.rightKey

/-- The key of the other sources. -/
def OptFields.plainKey (f : OptFields) : String :=
  optKey f.symKey f.expKey f.strikeKey f.rightKey

/-- `tws_execution_opt_key`; the outer `none` where it raises. -/
def twsExecutionOptKey (symbol expiry strike optionRight : PayloadValue) :
    Option (Option String) :=
  (executionOptFields symbol expiry strike optionRight).map OptFields.twsKey

section Rows

variable (row : Fields)

/-- The parts of the row's option key. -/
def optFields : Option OptFields :=
  executionOptFields (row .symbol) (row .expiry) (row .strike) (row .optionRight)

/-- `tws_execution_opt_key(…) or contract_key`. -/
def twsKeyed (key : Option String) : PayloadValue :=
  match key with
  | some key => if key = "" then row .contractKey else .text key
  | none => row .contractKey

/-- The key under which the sink stores a row; `none` where it raises. -/
def sinkKey : Option PayloadValue :=
  (stripOrEmpty (row .secType)).bind fun secType =>
  if upper secType = "OPT" then
    (optFields row).bind fun f =>
    (stripOrEmpty (row .source)).bind fun source =>
    (if source ∈ twsSources then
      (twsExecutionOptKey (row .symbol) (row .expiry) (row .strike) (row .optionRight)).map
        (twsKeyed row)
      else some (row .contractKey)).map fun key =>
    if key.truthy = false ∧ f.symKey ≠ "" then .text f.plainKey else key
  else some (row .contractKey)

/-- The key under which `write_account_executions_to_db` stores a row; `none` where it raises. -/
def accountsKey : Option PayloadValue :=
  (stripOrEmpty (row .secType)).bind fun secType =>
  if upper secType = "OPT" then
    (stripOrEmpty (row .source)).bind fun source =>
    if source ∈ twsSources then
      (twsExecutionOptKey (row .symbol) (row .expiry) (row .strike) (row .optionRight)).map
        (twsKeyed row)
    else some (row .contractKey)
  else some (row .contractKey)

/-! ## Values sent -/

/-- A value of a statement: as the row has it, a time in microseconds since 1970, or a date. -/
inductive Param where
  | value (v : PayloadValue)
  | instant (micros : ℤ)
  | date (d : Date)
  deriving DecidableEq

/-- What becomes of a time that was read: None where reading it raised. -/
def timeParam (micros : Option ℤ) : Param := micros.elim (.value .null) .instant

/-- `exec_dt` of the sink. -/
def sinkTime : PayloadValue → Param
  | .bool b => timeParam (fromTimestamp (.bool b))
  | .int n => timeParam (fromTimestamp (.int n))
  | .float x => timeParam (fromTimestamp (.float x))
  | v => .value v

/-- `exec_dt` of `write_account_executions_to_db`, which takes the float of the time. -/
def accountsTime : PayloadValue → Param
  | .bool b => timeParam ((PayloadValue.bool b).toDouble.bind fun t => fromTimestamp (.float t))
  | .int n => timeParam ((PayloadValue.int n).toDouble.bind fun t => fromTimestamp (.float t))
  | .float x => timeParam ((PayloadValue.float x).toDouble.bind fun t => fromTimestamp (.float t))
  | v => .value v

/-- The day of the time that is sent. -/
def dateOf : Param → Param
  | .instant micros => (Date.ofUnixUtc (micros / 1000000)).elim (.value .null) .date
  | _ => .value .null

/-- `trade_date`: of a source that sends none, the day of the execution. -/
def tradeDate (source : String) (execTime : Param) : Param :=
  if source ≠ "flex_trades" ∧ row .tradeDate = .null then dateOf execTime
  else .value (row .tradeDate)

/-- `vals`; the rows of fills have no `raw_extra`. -/
def vals (execId contractKey : PayloadValue) (execTime tradeDate : Param) : Name → Param
  | .execId => .value execId
  | .time => execTime
  | .contractKey => .value contractKey
  | .tradeDate => tradeDate
  | name => .value (row name)

/-- `exec_id` of `write_account_executions_to_db`. -/
def accountsExecId : PayloadValue :=
  if (row .execId).truthy = false ∨ strip (row .execId).str = "" then
    if row .source = .text "flex_trades" ∧ (row .accountId).truthy ∧ (row .tradeId).truthy then
      .text ("flex_" ++ (row .accountId).str ++ "_" ++ (row .tradeId).str)
    else .null
  else row .execId

/-- What the sink sends; `none` where it raises. -/
def sinkSent : Option (Name → Param) :=
  (sinkKey row).bind fun key =>
  (stripOrEmpty (row .source)).map fun source =>
  vals row (row .execId) key (sinkTime (row .time)) (tradeDate row source (sinkTime (row .time)))

/-- What `write_account_executions_to_db` sends; `none` where it raises. -/
def accountsSent : Option (Name → Param) :=
  (accountsKey row).bind fun key =>
  (stripOrEmpty (row .source)).map fun source =>
  vals row (accountsExecId row) key (accountsTime (row .time))
    (tradeDate row source (accountsTime (row .time)))

/-- The raw table of `write_account_executions_to_db`. -/
def rawTable : RawTable :=
  if row .source = .text "flex_trades" then .flex
  else if row .source = .text "journal_closed" then .journal
  else .tws

/-- The commission fields. -/
def report : Report where
  commission := row .commission
  currency := row .currency
  realizedPnl := row .realizedPnl
  yield_ := row .yield_
  yieldRedemptionDate := row .yieldRedemptionDate

/-- The source, where it is a text. -/
def sourceText : Option String :=
  match row .source with
  | .text s => some s
  | _ => none

end Rows

/-! ## Columns -/

/-- `cols`: the columns that are written. -/
def cols : List Name :=
  [.accountId, .execId, .time, .symbol, .secType, .side, .quantity, .price, .source,
    .expiry, .strike, .optionRight, .exchange, .orderId, .cumQty, .contractKey,
    .assetCategory, .subCategory, .description, .conid, .securityId, .securityIdType,
    .cusip, .isin, .figi, .listingExchange, .underlyingConid, .underlyingSymbol,
    .underlyingSecurityId, .underlyingListingExchange, .issuer, .issuerCountryCode,
    .tradeId, .relatedTradeId, .reportDate, .tradeDate, .settleDateTarget,
    .transactionType, .multiplier, .principalAdjustFactor, .proceeds, .taxes, .netCash,
    .closePrice, .openCloseIndicator, .notes, .cost, .fifoPnlRealized, .mtmPnl,
    .tradeMoney, .fxRateToBase, .acctAlias, .model, .rawExtra]

/-- The types of the columns. -/
inductive ColumnType where
  | text | float8 | int8 | timestamptz | date | jsonb
  deriving DecidableEq

/-- The type of a column in `_EXEC_RAW_COLUMNS_DDL`, which the three raw tables share. -/
def columnType : Name → ColumnType
  | .time => .timestamptz
  | .reportDate | .tradeDate | .settleDateTarget => .date
  | .orderId | .conid | .underlyingConid => .int8
  | .quantity | .price | .strike | .cumQty | .multiplier | .proceeds | .taxes | .netCash
  | .closePrice | .cost | .fifoPnlRealized | .mtmPnl | .tradeMoney | .fxRateToBase => .float8
  | .rawExtra => .jsonb
  | _ => .text

/-- What a column stores. -/
inductive Stored where
  | text (s : String)
  | float8 (x : Double)
  | int8 (n : ℤ)
  | timestamptz (micros : ℤ)
  | date (d : Date)
  | jsonb (json : String)
  deriving DecidableEq

/-- A column's value, or NULL. -/
abbrev Cell := Option Stored

/-- The text of a text column, and `''` for NULL. -/
def cellText : Cell → String
  | some (.text s) => s
  | _ => ""

/-- The driver and the types of the columns: the lists that can be sent, what a text column stores
of a value that is no text, and what the other types make of a value, if they take it. -/
structure Database where
  adaptsList : String → Bool
  printed : PayloadValue → String
  float8 : PayloadValue → Option Double
  int8 : PayloadValue → Option ℤ
  int4 : PayloadValue → Option ℤ
  timestamptz : PayloadValue → Option ℤ
  date : PayloadValue → Option Date
  jsonb : PayloadValue → Option String
  /-- `false`, `0`, `0.0` and `{}` are printed without a bar. -/
  pipe_not_mem_printed : ∀ v, v.truthy = false → '|' ∉ (printed v).toList

namespace Database

variable (d : Database)

/-- Whether the driver can send a value: no text with a NUL character, and no dictionary. -/
def adapts : PayloadValue → Bool
  | .text s => '\x00' ∉ s.toList
  | .container _ repr => d.adaptsList repr
  | _ => true

/-- Whether the driver can send what a statement has for a column. -/
def sends : Param → Bool
  | .value v => d.adapts v
  | _ => true

/-- What a text column stores. -/
def textCell : PayloadValue → Option String
  | .null => none
  | .text s => some s
  | v => some (d.printed v)

/-- What a column makes of a value of a row. -/
def ofValue (v : PayloadValue) : ColumnType → Option Cell
  | .text => some ((d.textCell v).map .text)
  | type =>
      if v = .null then some none
      else match type with
        | .float8 => (d.float8 v).map fun x => some (.float8 x)
        | .int8 => (d.int8 v).map fun n => some (.int8 n)
        | .timestamptz => (d.timestamptz v).map fun micros => some (.timestamptz micros)
        | .date => (d.date v).map fun day => some (.date day)
        | _ => (d.jsonb v).map fun json => some (.jsonb json)

/-- What a column makes of what is sent; times and dates are sent to columns of their type. -/
def cell (type : ColumnType) : Param → Option Cell
  | .value v => d.ofValue v type
  | .instant micros => if type = .timestamptz then some (some (.timestamptz micros)) else none
  | .date day => if type = .date then some (some (.date day)) else none

/-- The columns of the commissions. -/
def commissions : Commissions.Columns where
  float8 v := if v = .null then some none else (d.float8 v).map some
  text v := if d.adapts v then some (d.textCell v) else none
  int4 v := if v = .null then some none else (d.int4 v).map some

end Database

/-! ## Tables -/

/-- A stored row: its serial id and its other columns. -/
structure RawRow where
  id : ℤ
  cells : Name → Cell

/-- The primary key, the index on execution ids, and for Flex the index on account and trade. -/
def RawRow.clash (t : RawTable) (r s : RawRow) : Prop :=
  r.id = s.id ∨ cellText (r.cells .execId) ≠ "" ∧ r.cells .execId = s.cells .execId ∨
    t = .flex ∧ (r.cells .accountId).isSome ∧ cellText (r.cells .tradeId) ≠ "" ∧
      r.cells .accountId = s.cells .accountId ∧ r.cells .tradeId = s.cells .tradeId

instance (t : RawTable) : DecidableRel (RawRow.clash t) :=
  fun _ _ => inferInstanceAs (Decidable (_ ∨ _ ∧ _ ∨ _))

/-- The raw tables that are there, with the next value of the sequence of each, and the
commissions. -/
structure Db where
  raw : (t : RawTable) → Option (Sql.Store (RawRow.clash t))
  nextId : RawTable → ℤ
  commissions : CommissionTable

/-- What the columns make of a row that is sent. -/
def Database.stored (d : Database) (sent : Name → Param) (c : Name) : Cell :=
  if c ∈ cols then (d.cell (columnType c) (sent c)).join else none

/-- The cells of a row that is sent, where its columns take it. -/
def Database.cells (d : Database) (sent : Name → Param) : Option (Name → Cell) :=
  if ∀ c ∈ cols, (d.cell (columnType c) (sent c)).isSome then some (d.stored sent) else none

namespace Db

/-- A statement was executed on a raw table and took a value of its sequence. -/
def stored (db : Db) (t : RawTable) (rows : Sql.Store (RawRow.clash t)) : Db :=
  { db with
    raw := Function.update db.raw t (some rows)
    nextId := Function.update db.nextId t (db.nextId t + 1) }

/-- Whether a stored row has the execution id, in the index that leaves out NULL and `''`. -/
def sameExecId (cells : Name → Cell) (r : RawRow) : Bool :=
  cellText (cells .execId) ≠ "" ∧ r.cells .execId = cells .execId

/-- `INSERT`. -/
def insert (db : Db) (t : RawTable) (rows : Sql.Store (RawRow.clash t)) (cells : Name → Cell) :
    Option Db :=
  (rows.insert? ⟨db.nextId t, cells⟩).map (db.stored t)

/-- `INSERT … ON CONFLICT (exec_id) … DO NOTHING`. -/
def insertOrSkip (db : Db) (t : RawTable) (rows : Sql.Store (RawRow.clash t))
    (cells : Name → Cell) : Option Db :=
  if rows.rows.any (sameExecId cells) then some (db.stored t rows) else db.insert t rows cells

/-- `INSERT … ON CONFLICT (exec_id) … DO UPDATE SET` every column. -/
def upsert (db : Db) (t : RawTable) (rows : Sql.Store (RawRow.clash t)) (cells : Name → Cell) :
    Option Db :=
  (rows.upsert? (sameExecId cells) ⟨db.nextId t, cells⟩ fun r => ⟨r.id, cells⟩).map (db.stored t)

end Db

/-- A statement on a raw table; `missing` is what follows where the table is not there (`42P01`),
which is found before any column sees its value. -/
def execute (d : Database) (db : Db) (t : RawTable) (sent : Name → Param) (missing : Option Db)
    (statement : Sql.Store (RawRow.clash t) → (Name → Cell) → Option Db) : Option Db :=
  if ∀ c ∈ cols, d.sends (sent c) then
    match db.raw t with
    | none => missing
    | some rows => (d.cells sent).bind (statement rows)
  else none

/-! ## The writers -/

/-- The commission row of a raw row, with its execution id; `none` where it raises or the columns
refuse it. -/
def sentCommission (d : Database) (execId : PayloadValue) (row : Fields) : Option CommissionRow :=
  (d.commissions.text execId).bind fun key =>
  key.bind fun key =>
  (storedValue (row .commission) (sourceText row)).bind fun commission =>
  sentRow d.commissions key commission (report row) true

/-- Whether a row has a commission to write, and the execution id that it needs. -/
def WritesCommission (execId : PayloadValue) (row : Fields) : Prop :=
  execId.truthy = true ∧ (report row).hasCommission = true

instance (execId : PayloadValue) (row : Fields) : Decidable (WritesCommission execId row) :=
  inferInstanceAs (Decidable (_ ∧ _))

/-- The commission of a row, where it has one and the row an execution id. -/
def writeCommission (d : Database) (db : Db) (execId : PayloadValue) (row : Fields) : Option Db :=
  if WritesCommission execId row then
    (sentCommission d execId row).map fun new =>
      { db with commissions := db.commissions.upsert new new.coalesce new.execId_coalesce }
  else some db

/-- The raw row of the sink; a missing table fails the write. -/
def sinkRaw (d : Database) (db : Db) (execId : PayloadValue) (sent : Name → Param) : Option Db :=
  execute d db .tws sent none
    (if execId.truthy then db.insertOrSkip .tws else db.insert .tws)

/-- The raw row of `write_account_executions_to_db`; on a missing table the transaction starts
again. -/
def accountsRaw (d : Database) (start db : Db) (t : RawTable) (execId : PayloadValue)
    (sent : Name → Param) : Option Db :=
  execute d db t sent (some start)
    (if execId.truthy then
      if t = .flex then db.upsert t else db.insertOrSkip t
    else db.insert t)

/-- A row of `TradingDaemonSink.write_account_executions`. -/
def sinkRow (d : Database) (db : Db) (row : Fields) : Option Db :=
  (sinkSent row).bind fun sent =>
  (sinkRaw d db (row .execId) sent).bind fun db =>
  writeCommission d db (row .execId) row

/-- A row of `write_account_executions_to_db`. -/
def accountsRow (d : Database) (start db : Db) (row : Fields) : Option Db :=
  let execId := accountsExecId row
  (accountsSent row).bind fun sent =>
  (accountsRaw d start db (rawTable row) execId sent).bind fun db =>
  writeCommission d db execId row

/-- `TradingDaemonSink.write_account_executions`: the tables it commits, or `none` where it rolls
back. -/
def writeAccountExecutions (d : Database) (db : Db) (rows : List Fields) : Option Db :=
  rows.foldlM (sinkRow d) db

/-- `write_account_executions_to_db`: the tables it commits, or `none` where it returns False. -/
def writeAccountExecutionsToDb (d : Database) (db : Db) (rows : List Fields) : Option Db :=
  rows.foldlM (accountsRow d db) db

end Portfolio.FillWriters
