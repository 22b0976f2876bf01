import BifrostTrade.Lib.Binary64
import BifrostTrade.Portfolio.FillImport
import BifrostTrade.Portfolio.SplitSum

/-!
# Commissions

`persistence/postgres/commissions.py` and the writers that use it: the fill imports, the reports of
a commission by execution id, and the edits by hand.  A commission is stored in the sign of the
statement and read as a cost.  What is read is the last value that said something, whichever writer
sent it (`readCommission_run`).  All of the raw tables are there, as the view that the readers read
needs them.
-/

namespace Portfolio.Commissions

open Py Persistence Runs

/-! ## Values -/

/-- The commission fields of a payload. -/
structure Report where
  commission : PayloadValue
  currency : PayloadValue
  realizedPnl : PayloadValue
  yield_ : PayloadValue
  yieldRedemptionDate : PayloadValue

/-- None or a blank text. -/
def isBlank : PayloadValue → Bool
  | .null => true
  | .text s => strip s = ""
  | _ => false

/-- `_number`; `none` where it raises. -/
def number (value : PayloadValue) : Option (Option Double) :=
  if isBlank value then some none else value.toDouble.map some

/-- `stored_commission`; `none` where it raises. -/
def storedValue (value : PayloadValue) (source : Option String) : Option (Option Double) :=
  (number value).map fun n => storedCommission n source

/-- `_zero_to_none` of a value that need not be a number. -/
def zeroToNull (value : PayloadValue) : PayloadValue :=
  if isBlank value ∨ value.toDouble = some (.fin 0) then .null else value

/-- `_has_meaningful_commission` of a number. -/
def hasMeaningfulNumber : PayloadValue → Bool
  | .null => false
  | .bool b => b
  | .int n => n ≠ 0
  | .float x => x ≠ .fin 0
  | _ => true

/-- `_has_meaningful_commission` of a text. -/
def hasMeaningfulText (value : PayloadValue) : Bool := value.truthy ∧ strip value.str ≠ ""

/-- Whether an import or a report of a fill writes its commission. -/
def Report.hasCommission (r : Report) : Bool :=
  hasMeaningfulNumber r.commission ∨ hasMeaningfulNumber r.realizedPnl ∨
    hasMeaningfulText r.currency ∨ hasMeaningfulNumber r.yield_ ∨
    hasMeaningfulNumber r.yieldRedemptionDate

/-! ## The table -/

/-- The value or the NULL that a column makes of a value that is sent; `none` where the database
refuses it. -/
structure Columns where
  float8 : PayloadValue → Option (Option Double)
  text : PayloadValue → Option (Option String)
  int4 : PayloadValue → Option (Option ℤ)

/-- The table of the commissions. -/
abbrev CommissionTable := Sql.Table CommissionRow.execId

/-- The row that `upsert_commission` sends. -/
def sentRow (columns : Columns) (execId : String) (commission : Option Double) (r : Report)
    (zeroKeepsExisting : Bool) : Option CommissionRow :=
  let orNull (v : PayloadValue) : PayloadValue := if zeroKeepsExisting then zeroToNull v else v
  let currency := if strip r.currency.str ≠ "" then r.currency else .null
  (columns.float8 (orNull r.realizedPnl)).bind fun realizedPnl =>
  (columns.text currency).bind fun currency =>
  (columns.float8 (orNull r.yield_)).bind fun yield_ =>
  (columns.int4 (orNull r.yieldRedemptionDate)).map fun yieldRedemptionDate =>
    { execId, currency, realizedPnl, yield_, yieldRedemptionDate
      commission := if zeroKeepsExisting then zeroToNone (.fin 0) commission else commission }

/-- `upsert_commission`. -/
def upsertCommission (columns : Columns) (t : CommissionTable) (execId : String)
    (commission : Option Double) (r : Report) (zeroKeepsExisting : Bool) :
    Option CommissionTable :=
  (sentRow columns execId commission r zeroKeepsExisting).map fun new =>
    t.upsert new new.coalesce new.execId_coalesce

/-- A value sent by a source: its stored sign, then the upsert. -/
def sendCommission (columns : Columns) (t : CommissionTable) (execId : String)
    (source : Option String) (r : Report) (zeroKeepsExisting : Bool) : Option CommissionTable :=
  (storedValue r.commission source).bind fun commission =>
    upsertCommission columns t execId commission r zeroKeepsExisting

/-- The commission as the readers return it: `LEFT JOIN` on the execution id, as a cost. -/
def readCommission (t : CommissionTable) (execId : Option String) : Option Double :=
  ((execId.bind t.get).bind CommissionRow.commission).map Double.neg

/-! ## Typed reports -/

/-- The report of a row of `FillImport`, whose fields are typed. -/
def reportOf (r : FillRow) : Report where
  commission := r.commission.elim .null .float
  currency := r.currency.elim .null .text
  realizedPnl := r.realizedPnl.elim .null .float
  yield_ := r.yield_.elim .null .float
  yieldRedemptionDate := r.yieldRedemptionDate.elim .null .int

/-- Columns that store a value of their type as it is. -/
structure Columns.TakesTyped (columns : Columns) : Prop where
  null : columns.float8 .null = some none ∧ columns.text .null = some none ∧
    columns.int4 .null = some none
  float8 : ∀ x, columns.float8 (.float x) = some (some x)
  text : ∀ s, columns.text (.text s) = some (some s)
  int4 : ∀ n : ℤ, |n| < 2 ^ 31 → columns.int4 (.int n) = some (some n)

theorem hasMeaningfulNumber_float (value : Option Double) :
    hasMeaningfulNumber (value.elim .null .float) = (zeroToNone (.fin 0) value).isSome := by
  cases value with
  | none => rfl
  | some x => by_cases hx : x = .fin 0 <;> simp [hasMeaningfulNumber, zeroToNone, Option.filter, hx]

theorem hasMeaningfulNumber_int (value : Option ℤ) :
    hasMeaningfulNumber (value.elim .null .int) = (zeroToNone 0 value).isSome := by
  cases value with
  | none => rfl
  | some n => by_cases hn : n = 0 <;> simp [hasMeaningfulNumber, zeroToNone, Option.filter, hn]

theorem hasMeaningfulText_text (value : Option String) :
    hasMeaningfulText (value.elim .null .text) = (nonBlank value).isSome := by
  cases value with
  | none => rfl
  | some s =>
    have hempty : strip "" = "" := by decide
    by_cases hs : strip s = ""
    · simp [hasMeaningfulText, nonBlank, Option.filter, PayloadValue.str, hs]
    · have hne : s ≠ "" := fun h => hs (by rw [h, hempty])
      simp [hasMeaningfulText, nonBlank, Option.filter, PayloadValue.str, PayloadValue.truthy, hs,
        hne]

/-- A typed row has a commission to write exactly when its report has. -/
theorem hasCommission_reportOf (r : FillRow) : (reportOf r).hasCommission = r.hasCommission := by
  simp only [Report.hasCommission, FillRow.hasCommission, reportOf, hasMeaningfulNumber_float,
    hasMeaningfulNumber_int, hasMeaningfulText_text]

theorem zeroToNull_float (value : Option Double) :
    zeroToNull (value.elim .null .float) = (zeroToNone (.fin 0) value).elim .null .float := by
  cases value with
  | none => rfl
  | some x =>
    by_cases hx : x = .fin 0 <;>
      simp [zeroToNull, isBlank, PayloadValue.toDouble, zeroToNone, Option.filter, hx]

theorem zeroToNull_int {value : Option ℤ} (h : ∀ n ∈ value, |n| < 2 ^ 31) :
    zeroToNull (value.elim .null .int) = (zeroToNone 0 value).elim .null .int := by
  cases value with
  | none => rfl
  | some n =>
    have hexact : nearest n = .fin n := nearest_of_floatExact ⟨n, 0, by
      have := h n rfl
      omega, by norm_num, by norm_num⟩
    have hvalue : (PayloadValue.int n).toDouble = some (.fin n) := by
      rw [PayloadValue.toDouble, hexact]
      rfl
    rcases eq_or_ne n 0 with rfl | hn
    · have hzero : (PayloadValue.int 0).toDouble = some (.fin 0) := by simpa using hvalue
      simp [zeroToNull, hzero, zeroToNone, Option.filter]
    · simp [zeroToNull, isBlank, hvalue, zeroToNone, Option.filter, hn]

theorem storedValue_reportOf (r : FillRow) :
    storedValue (reportOf r).commission r.source =
      some (storedCommission r.commission r.source) := by
  cases h : r.commission <;> simp [storedValue, number, reportOf, h, isBlank, PayloadValue.toDouble]

/-- The row that is sent for a typed row. -/
theorem sendCommission_reportOf {columns : Columns} (hcolumns : columns.TakesTyped)
    {r : FillRow} (hdate : ∀ n ∈ r.yieldRedemptionDate, |n| < 2 ^ 31) (t : CommissionTable)
    (execId : String) :
    sendCommission columns t execId r.source (reportOf r) true =
      some (t.upsert (r.commissionRow execId) (r.commissionRow execId).coalesce fun _ => rfl) := by
  have hfloat : ∀ value : Option Double,
      columns.float8 (value.elim .null .float) = some value := by
    intro value
    cases value with
    | none => exact hcolumns.null.1
    | some x => exact hcolumns.float8 x
  have hcurrency : columns.text (if strip (reportOf r).currency.str ≠ "" then (reportOf r).currency
      else .null) = some (r.currency.filter fun c => strip c ≠ "") := by
    cases hc : r.currency with
    | none => simp [reportOf, hc, hcolumns.null.2.1]
    | some c =>
      by_cases hs : strip c = "" <;>
        simp [reportOf, hc, PayloadValue.str, hs, hcolumns.null.2.1, hcolumns.text, Option.filter]
  have hyield : columns.int4 (zeroToNull (reportOf r).yieldRedemptionDate) =
      some (zeroToNone 0 r.yieldRedemptionDate) := by
    rw [reportOf, zeroToNull_int hdate]
    cases hn : zeroToNone 0 r.yieldRedemptionDate with
    | none => exact hcolumns.null.2.2
    | some n => exact hcolumns.int4 n (hdate n (Option.eq_some_of_filter_eq_some hn))
  have hsent : sentRow columns execId (storedCommission r.commission r.source) (reportOf r) true =
      some (r.commissionRow execId) := by
    simp only [sentRow, if_true, hcurrency, hyield, Option.bind_some, Option.map_some]
    rw [show (reportOf r).realizedPnl = r.realizedPnl.elim .null .float from rfl,
      show (reportOf r).yield_ = r.yield_.elim .null .float from rfl, zeroToNull_float,
      zeroToNull_float, hfloat, hfloat]
    rfl
  rw [sendCommission, storedValue_reportOf, Option.bind_some, upsertCommission, hsent,
    Option.map_some]

/-! ## The writers -/

/-- The executions and their commissions. -/
structure Db where
  executions : ExecutionDb
  commissions : CommissionTable

/-- A row of an import with its commission report. -/
structure ReportedRow extends ImportRow where
  report : Report

/-- The commission of a row of an import, where it has one and the row an execution id. -/
def rowCommission (columns : Columns) (t : CommissionTable) (execId source : Option String)
    (r : Report) : Option CommissionTable :=
  if textOrEmpty execId ≠ "" ∧ r.hasCommission then
    sendCommission columns t (textOrEmpty execId) source r true
  else some t

/-- A row of `write_account_executions_to_db`. -/
def importRow (columns : Columns) (db : Db) (r : ReportedRow) : Option Db :=
  (writeImportRow db.executions r.toImportRow).bind fun executions =>
  (rowCommission columns db.commissions r.storedExecId r.source r.report).map fun commissions =>
    ⟨executions, commissions⟩

/-- The raw row of `write_account_executions`: a TWS row that is stored stays. -/
def sinkExecution (db : ExecutionDb) (r : ImportRow) : Option ExecutionDb :=
  if textOrEmpty r.execId ≠ "" ∧ (db.raw .tws).rows.any fun s => s.execId = r.execId then some db
  else insertRaw db .tws { r.row with execId := r.execId }

/-- A row of `TradingDaemonSink.write_account_executions`. -/
def sinkRow (columns : Columns) (db : Db) (r : ReportedRow) : Option Db :=
  (sinkExecution db.executions r.toImportRow).bind fun executions =>
  (rowCommission columns db.commissions r.execId r.source r.report).map fun commissions =>
    ⟨executions, commissions⟩

/-- `update_execution_commission`, of the reader and of the sink. -/
def updateExecutionCommission (columns : Columns) (db : Db) (execId : String) (r : Report) :
    Option Db :=
  if execId = "" then none
  else (sendCommission columns db.commissions execId none r true).map fun commissions =>
    { db with commissions }

/-- The commission fields of a form. -/
structure FormReport where
  commission : Field PayloadValue
  realizedPnl : Field PayloadValue
  currency : Field PayloadValue

/-- Whether the form has one of the fields. -/
def FormReport.present (f : FormReport) : Bool :=
  f.commission.present ∨ f.realizedPnl.present ∨ f.currency.present

/-- What the form sends, as a report. -/
def FormReport.report (f : FormReport) : Report where
  commission := f.commission.toOption.getD .null
  currency := f.currency.toOption.getD .null
  realizedPnl := f.realizedPnl.toOption.getD .null
  yield_ := .null
  yieldRedemptionDate := .null

/-- Whether `insert_one_execution` writes the commission. -/
def FormReport.inserted (f : FormReport) : Bool :=
  f.report.commission ≠ .null ∨ f.report.realizedPnl ≠ .null ∨ hasMeaningfulText f.report.currency

/-- `insert_one_execution`. -/
def insertExecution (columns : Columns) (db : Db) (seqId : SeqId) (uuidHex : UuidHex)
    (body : InsertBody) (form : FormReport) : Option Db :=
  (insertOneExecution db.executions seqId uuidHex body).bind fun inserted =>
  (if form.inserted then
    sendCommission columns db.commissions (body.newExecId uuidHex) none form.report false
    else some db.commissions).map fun commissions => ⟨inserted.1, commissions⟩

/-- `update_one_execution`: the commission goes to the execution id of the raw row, which the row
has by then. -/
def updateExecution (columns : Columns) (db : Db) (id : ℤ) (body : UpdateBody)
    (form : FormReport) : Option Db :=
  (updateOneExecution db.executions id { body with commission := form.present }).bind
    fun executions =>
  (if form.present then
    ((fillRow executions id).bind RawRow.execId).bind fun execId =>
      sendCommission columns db.commissions execId none form.report false
    else some db.commissions).map fun commissions => ⟨executions, commissions⟩

/-! ## Steps -/

/-- A call of a writer. -/
inductive Event where
  | importRows (rows : List ReportedRow)
  | sinkRows (rows : List ReportedRow)
  | report (execId : String) (r : Report)
  | insert (seqId : SeqId) (uuidHex : UuidHex) (body : InsertBody) (form : FormReport)
  | update (id : ℤ) (body : UpdateBody) (form : FormReport)

/-- The tables a call commits; `none` where it fails. -/
def attempt (columns : Columns) (db : Db) : Event → Option Db
  | .importRows rows => rows.foldlM (importRow columns) db
  | .sinkRows rows => rows.foldlM (sinkRow columns) db
  | .report execId r => updateExecutionCommission columns db execId r
  | .insert seqId uuidHex body form => insertExecution columns db seqId uuidHex body form
  | .update id body form => updateExecution columns db id body form

/-- A call that fails leaves the tables as they are. -/
def step (columns : Columns) (db : Db) (e : Event) : Db := (attempt columns db e).getD db

/-! ## What is said -/

/-- Where a value comes from. -/
inductive Sender where
  | flex
  | report
  | hand
  deriving DecidableEq

/-- A value sent for an execution id. -/
structure Sent where
  execId : String
  sender : Sender
  value : PayloadValue

/-- The cost that a value says, if it says something: a Flex value is negated, and only by hand a
zero says something. -/
def Sent.cost (s : Sent) : Option Double :=
  let value := if isBlank s.value then none else s.value.toDouble
  match s.sender with
  | .flex => (value.filter fun x => x ≠ .fin 0).map Double.neg
  | .report => value.filter fun x => x ≠ .fin 0
  | .hand => value

/-- The sender of a row with a source. -/
def senderOf (source : Option String) : Sender :=
  if strip (textOrEmpty source) = "flex_trades" then .flex else .report

/-- The execution id that an edit names: that of the raw row, or one made up from the id. -/
def editedExecId (db : Db) (id : ℤ) : String :=
  textOrEmpty (((fillRow db.executions id).map (manualExecId id)).bind RawRow.execId)

/-- The values a call sends. -/
def Event.sent (db : Db) : Event → List Sent
  | .importRows rows => rows.map fun r =>
      ⟨textOrEmpty r.storedExecId, senderOf r.source, r.report.commission⟩
  | .sinkRows rows => rows.map fun r =>
      ⟨textOrEmpty r.execId, senderOf r.source, r.report.commission⟩
  | .report execId r => [⟨execId, .report, r.commission⟩]
  | .insert _ uuidHex body form => [⟨body.newExecId uuidHex, .hand, form.report.commission⟩]
  | .update id _ form => [⟨editedExecId db id, .hand, form.report.commission⟩]

/-- The values that the calls that went through have sent, in order. -/
def history (columns : Columns) (db : Db) : List Event → List Sent
  | [] => []
  | e :: es =>
      (if (attempt columns db e).isSome then e.sent db else []) ++
        history columns (step columns db e) es

/-- The last value of an execution id that said something. -/
def lastSaid (sent : List Sent) (execId : String) : Option Double :=
  ((sent.filter fun s => s.execId = execId).filterMap Sent.cost).getLast?

/-! ## One value -/

theorem Double.neg_neg (x : Double) : x.neg.neg = x := by
  cases x <;> simp [Double.neg]

theorem Double.neg_eq_zero_iff (x : Double) : x.neg = .fin 0 ↔ x = .fin 0 := by
  cases x <;> simp [Double.neg]

theorem zero_neg : (Double.fin 0).neg = .fin 0 := by simp [Double.neg]

/-- The stored value of a sent one, as a cost, is what the value says. -/
theorem cost_storedCommission (s : Sent) (source : Option String)
    (hsource : s.sender = .hand ∧ source = none ∨ s.sender = senderOf source)
    {n : Option Double} (hn : number s.value = some n) :
    (if s.sender ≠ .hand then zeroToNone (.fin 0) (storedCommission n source)
      else storedCommission n source).map Double.neg = s.cost := by
  have hvalue : (if isBlank s.value then none else s.value.toDouble) = n := by
    unfold number at hn
    split_ifs at hn ⊢ with hblank
    · exact Option.some.inj hn
    · obtain ⟨x, hx, rfl⟩ := Option.map_eq_some_iff.1 hn
      exact hx
  rw [Sent.cost, hvalue]
  cases n with
  | none => cases s.sender <;> simp [storedCommission, zeroToNone]
  | some x =>
    rcases hsource with ⟨hhand, rfl⟩ | hsender
    · by_cases hx : x = .fin 0
      · simp [storedCommission, textOrEmpty, hhand, hx, zero_neg]
      · simp [storedCommission, textOrEmpty, hhand, hx, Double.neg_neg]
    · by_cases hflex : strip (textOrEmpty source) = "flex_trades"
      · simp [hsender, senderOf, hflex, storedCommission, zeroToNone]
      · by_cases hx : x = .fin 0
        · simp [hsender, senderOf, hflex, storedCommission, zeroToNone, hx, Option.filter]
        · simp [hsender, senderOf, hflex, storedCommission, zeroToNone, hx, Option.filter,
            Double.neg_eq_zero_iff, Double.neg_neg]

/-- A value without meaning for an import says nothing. -/
theorem cost_of_not_meaningful {s : Sent} (hsender : s.sender ≠ .hand)
    (h : hasMeaningfulNumber s.value = false) : s.cost = none := by
  have hzero : (if isBlank s.value then none else s.value.toDouble) = none ∨
      (if isBlank s.value then none else s.value.toDouble) = some (.fin 0) := by
    cases hv : s.value with
    | null => simp [isBlank]
    | bool b => simp_all [isBlank, hasMeaningfulNumber, PayloadValue.toDouble]
    | int n =>
      obtain rfl : n = 0 := by simpa [hv, hasMeaningfulNumber] using h
      exact .inr (by decide +kernel)
    | float x => simp_all [isBlank, hasMeaningfulNumber, PayloadValue.toDouble]
    | text t => simp [hv, hasMeaningfulNumber] at h
    | container empty repr => simp [hv, hasMeaningfulNumber] at h
  rw [Sent.cost]
  rcases hzero with hnone | hzero
  · rw [hnone]
    cases s.sender <;> rfl
  · rw [hzero]
    cases hs : s.sender with
    | flex => simp
    | report => simp
    | hand => exact absurd hs hsender

/-! ## What a call says -/

theorem lastSaid_append (a b : List Sent) (execId : String) :
    lastSaid (a ++ b) execId = (lastSaid b execId).or (lastSaid a execId) := by
  simp [lastSaid]

theorem lastSaid_singleton (s : Sent) (execId : String) :
    lastSaid [s] execId = if s.execId = execId then s.cost else none := by
  by_cases h : s.execId = execId
  · cases hs : s.cost <;> simp [lastSaid, h, hs]
  · simp [lastSaid, h]

section Calls

variable {columns : Columns} {execId : String}

/-- A table after values were sent: each execution id reads as the last of them that said something,
or else as before. -/
def Says (t t' : CommissionTable) (sent : List Sent) (execId : String) : Prop :=
  readCommission t' (some execId) = (lastSaid sent execId).or (readCommission t (some execId))

theorem Says.nil (t : CommissionTable) : Says t t [] execId := by
  simp [Says, lastSaid]

theorem Says.append {t t' t'' : CommissionTable} {a b : List Sent} (h : Says t t' a execId)
    (h' : Says t' t'' b execId) : Says t t'' (a ++ b) execId := by
  rw [Says] at h h' ⊢
  rw [h', h, lastSaid_append, Option.or_assoc]

/-- A value that says nothing, or one of another execution id, may be left out. -/
theorem Says.of_silent {t : CommissionTable} {s : Sent}
    (h : s.execId = execId → s.cost = none) : Says t t [s] execId := by
  rw [Says, lastSaid_singleton]
  split_ifs with hs
  · rw [h hs, Option.none_or]
  · rw [Option.none_or]

/-- An upsert merges what it sends into the row of its execution id. -/
theorem readCommission_upsert (t : CommissionTable) (new : CommissionRow) :
    readCommission (t.upsert new new.coalesce fun _ => rfl) (some execId) =
      (if new.execId = execId then new.commission.map Double.neg else none).or
        (readCommission t (some execId)) := by
  have hget : (t.upsert new new.coalesce fun _ => rfl).get execId =
      if new.execId = execId then some ((t.get execId).elim new new.coalesce)
      else t.get execId := Sql.Table.get_upsert
  rw [readCommission, readCommission, Option.bind_some, Option.bind_some, hget]
  split_ifs with hkey
  · cases t.get execId with
    | none => simp
    | some old => cases hc : new.commission <;> simp [CommissionRow.coalesce, hc]
  · rw [Option.none_or]

theorem says_sendCommission {t t' : CommissionTable} {stored : String} {sender : Sender}
    {source : Option String} {r : Report}
    (hsource : sender = .hand ∧ source = none ∨ sender = senderOf source)
    (h : sendCommission columns t stored source r (sender ≠ .hand) = some t') :
    Says t t' [⟨stored, sender, r.commission⟩] execId := by
  obtain ⟨commission, hstored, hupsert⟩ := Option.bind_eq_some_iff.1 h
  obtain ⟨n, hn, rfl⟩ := Option.map_eq_some_iff.1 hstored
  obtain ⟨new, hnew, rfl⟩ := Option.map_eq_some_iff.1 hupsert
  simp only [sentRow, Option.bind_eq_some_iff, Option.map_eq_some_iff, decide_eq_true_eq] at hnew
  obtain ⟨realizedPnl, -, currency, -, yield_, -, redemption, -, rfl⟩ := hnew
  rw [Says, readCommission_upsert, lastSaid_singleton]
  dsimp only
  rw [cost_storedCommission ⟨stored, sender, r.commission⟩ source hsource hn]

theorem senderOf_ne_hand (source : Option String) : senderOf source ≠ .hand := by
  unfold senderOf
  split_ifs <;> simp

theorem senderOf_none : senderOf none = .report := by
  unfold senderOf
  exact if_neg (by decide)

theorem says_rowCommission {t t' : CommissionTable} {stored source : Option String} {r : Report}
    (hexec : execId ≠ "") (h : rowCommission columns t stored source r = some t') :
    Says t t' [⟨textOrEmpty stored, senderOf source, r.commission⟩] execId := by
  unfold rowCommission at h
  have hhand := senderOf_ne_hand source
  generalize hsender : senderOf source = sender at *
  split_ifs at h with hsend
  · have hkeep : decide (sender ≠ .hand) = true := decide_eq_true hhand
    rw [← hkeep] at h
    exact says_sendCommission (.inr hsender.symm) h
  · obtain rfl := Option.some.inj h
    refine @Says.of_silent execId t ⟨textOrEmpty stored, sender, r.commission⟩ fun hs =>
      cost_of_not_meaningful hhand ?_
    -- the row has an execution id, so it is the commission that is not there
    have hcommission : r.hasCommission = false := by
      by_contra hc
      have hs : textOrEmpty stored = execId := hs
      exact hsend ⟨by rwa [hs], by simpa using hc⟩
    simp only [Report.hasCommission, decide_eq_false_iff_not, not_or] at hcommission
    simpa using hcommission.1

/-- Rows one after another say what each of them says. -/
theorem says_foldlM {write : Db → ReportedRow → Option Db} {sentOf : ReportedRow → Sent}
    (hwrite : ∀ db r db', write db r = some db' →
      Says db.commissions db'.commissions [sentOf r] execId)
    {rows : List ReportedRow} {db db' : Db} (h : rows.foldlM write db = some db') :
    Says db.commissions db'.commissions (rows.map sentOf) execId := by
  induction rows generalizing db with
  | nil =>
    obtain rfl := Option.some.inj h
    exact Says.nil _
  | cons r rows ih =>
    rw [List.foldlM_cons] at h
    obtain ⟨db₁, h₁, h₂⟩ := Option.bind_eq_some_iff.1 h
    exact (hwrite db r db₁ h₁).append (ih h₂)

/-- The execution id that an edit reads from the raw row is the one that it names. -/
theorem execId_of_updateOneExecution {db : ExecutionDb} {id : ℤ} {body : UpdateBody}
    {executions : ExecutionDb} (hbody : body.commission = true)
    (h : updateOneExecution db id body = some executions) :
    ((fillRow executions id).bind RawRow.execId) =
      ((fillRow db id).map (manualExecId id)).bind RawRow.execId := by
  obtain ⟨r, db₁, db₂, db₃, hr, hraw, hsplits, hset, hcomm⟩ := of_updateOneExecution h
  have h₃ : db₃.raw = db₂.raw := by
    rcases hset with ⟨rfl, -⟩ | ⟨-, -, hset⟩
    · rfl
    · exact (of_setWholeAttribution hset).1.1
  have hrow := fillRow_updateOneExecution hr hraw (raw_of_appliesSplits hsplits)
    h₃ hcomm
  have hedit : (body.edit r).execId = r.execId := rfl
  rw [hrow, hr, UpdateBody.editedRow, if_pos hbody]
  simp only [Option.map_some, Option.bind_some, manualExecId, hedit]
  split_ifs <;> rfl

theorem says_importRow {db db' : Db} {r : ReportedRow} (hexec : execId ≠ "")
    (h : importRow columns db r = some db') :
    Says db.commissions db'.commissions
      [⟨textOrEmpty r.storedExecId, senderOf r.source, r.report.commission⟩] execId := by
  obtain ⟨executions, -, h⟩ := Option.bind_eq_some_iff.1 h
  obtain ⟨commissions, hr, rfl⟩ := Option.map_eq_some_iff.1 h
  exact says_rowCommission hexec hr

theorem says_sinkRow {db db' : Db} {r : ReportedRow} (hexec : execId ≠ "")
    (h : sinkRow columns db r = some db') :
    Says db.commissions db'.commissions
      [⟨textOrEmpty r.execId, senderOf r.source, r.report.commission⟩] execId := by
  obtain ⟨executions, -, h⟩ := Option.bind_eq_some_iff.1 h
  obtain ⟨commissions, hr, rfl⟩ := Option.map_eq_some_iff.1 h
  exact says_rowCommission hexec hr

theorem says_report {db db' : Db} {stored : String} {r : Report}
    (h : updateExecutionCommission columns db stored r = some db') :
    Says db.commissions db'.commissions [⟨stored, .report, r.commission⟩] execId := by
  unfold updateExecutionCommission at h
  split_ifs at h with he
  obtain ⟨commissions, hr, rfl⟩ := Option.map_eq_some_iff.1 h
  exact says_sendCommission (.inr senderOf_none.symm) hr

/-- A form is written when it has a commission. -/
theorem cost_of_null {s : Sent} (h : s.value = .null) : s.cost = none := by
  rw [Sent.cost, h]
  cases s.sender <;> rfl

theorem says_insert {db db' : Db} {seqId : SeqId} {uuidHex : UuidHex} {body : InsertBody}
    {form : FormReport} (h : insertExecution columns db seqId uuidHex body form = some db') :
    Says db.commissions db'.commissions
      [⟨body.newExecId uuidHex, .hand, form.report.commission⟩] execId := by
  obtain ⟨inserted, -, h⟩ := Option.bind_eq_some_iff.1 h
  obtain ⟨commissions, hr, rfl⟩ := Option.map_eq_some_iff.1 h
  split_ifs at hr with hform
  · exact says_sendCommission (.inl ⟨rfl, rfl⟩) hr
  · obtain rfl := Option.some.inj hr
    simp only [FormReport.inserted, decide_eq_true_eq, not_or, not_not] at hform
    exact Says.of_silent fun _ => cost_of_null hform.1

theorem commission_of_not_present {form : FormReport} (h : ¬ form.present = true) :
    form.report.commission = .null := by
  simp only [FormReport.present, decide_eq_true_eq, not_or, Bool.not_eq_true] at h
  cases hc : form.commission with
  | absent => simp [FormReport.report, hc, Field.toOption]
  | null => simp [hc, Field.present] at h
  | value v => simp [hc, Field.present] at h

theorem says_update {db db' : Db} {id : ℤ} {body : UpdateBody} {form : FormReport}
    (h : updateExecution columns db id body form = some db') :
    Says db.commissions db'.commissions
      [⟨editedExecId db id, .hand, form.report.commission⟩] execId := by
  obtain ⟨executions, hupdate, h⟩ := Option.bind_eq_some_iff.1 h
  obtain ⟨commissions, hr, rfl⟩ := Option.map_eq_some_iff.1 h
  split_ifs at hr with hform
  · obtain ⟨e, he, hr⟩ := Option.bind_eq_some_iff.1 hr
    rw [execId_of_updateOneExecution hform hupdate] at he
    have hedited : editedExecId db id = e := by
      rw [editedExecId, he]
      rfl
    rw [hedited]
    exact says_sendCommission (.inl ⟨rfl, rfl⟩) hr
  · obtain rfl := Option.some.inj hr
    exact Says.of_silent fun _ => cost_of_null (commission_of_not_present hform)

theorem says_attempt {db db' : Db} {e : Event} (hexec : execId ≠ "")
    (h : attempt columns db e = some db') :
    Says db.commissions db'.commissions (e.sent db) execId := by
  cases e with
  | importRows rows => exact says_foldlM (fun _ _ _ hr => says_importRow hexec hr) h
  | sinkRows rows => exact says_foldlM (fun _ _ _ hr => says_sinkRow hexec hr) h
  | report stored r => exact says_report h
  | insert seqId uuidHex body form => exact says_insert h
  | update id body form => exact says_update h

variable (columns)

theorem says_run (db : Db) (evs : List Event) (hexec : execId ≠ "") :
    Says db.commissions (run (step columns) db evs).commissions (history columns db evs)
      execId := by
  induction evs generalizing db with
  | nil => exact Says.nil _
  | cons e es ih =>
    refine Says.append ?_ (ih (step columns db e))
    cases hattempt : attempt columns db e with
    | none =>
      rw [step, hattempt]
      exact Says.nil _
    | some db' =>
      rw [step, hattempt]
      exact says_attempt hexec hattempt

/-- **The last writer.**  After any calls, the commission of a fill with an execution id reads as
the last value sent for the execution id that said something, or as before when none did, whatever
the source of the fill's row. -/
theorem readCommission_run (db : Db) (evs : List Event) (fill : RawRow)
    (hexec : textOrEmpty fill.execId ≠ "") :
    readCommission (run (step columns) db evs).commissions fill.execId =
      (lastSaid (history columns db evs) (textOrEmpty fill.execId)).or
        (readCommission db.commissions fill.execId) := by
  have hsome : fill.execId = some (textOrEmpty fill.execId) := by
    cases hfill : fill.execId with
    | none =>
      rw [hfill] at hexec
      exact absurd rfl hexec
    | some e => rfl
  have hsays := says_run columns db evs hexec
  rwa [Says, ← hsome] at hsays

end Calls

/-! ## A Flex fill that is edited -/

/-- Columns that take numbers and texts as they are. -/
def plainColumns : Columns where
  float8 v := if v = .null then some none else v.toDouble.map some
  text v := if v = .null then some none else some (some v.str)
  int4 v := if v = .null then some none else v.toInt.map some

/-- No rows at all. -/
def noTables : Db := ⟨ExecutionDb.empty, .empty⟩

/-- A fill bought, imported from Flex with a charge. -/
def flexFill : ReportedRow where
  seqId := sampleSeqId
  accountId := some "U1"
  execId := some "e1"
  side := some "BUY"
  quantity := some (.fin 1)
  source := some "flex_trades"
  tradeId := none
  report := ⟨.float (.fin (-13 / 20)), .text "USD", .null, .null, .null⟩

/-- An edit that sends a commission only. -/
def commissionEdit (value : PayloadValue) : Event :=
  .update 1 ⟨.absent, .absent, .absent, .absent, false, true, .absent, .absent, .absent⟩
    ⟨.value value, .absent, .absent⟩

/-- The import, the edit that sends back what is read, a typed zero, and a report without a
commission. -/
def flexFillEdits : List Event :=
  [.importRows [flexFill], commissionEdit (.float (.fin (13 / 20))), commissionEdit (.int 0),
    .report "e1" ⟨.null, .text "USD", .null, .null, .null⟩]

example : lastSaid (history plainColumns noTables (flexFillEdits.take 2)) "e1" =
    some (.fin (13 / 20)) := by decide +kernel

theorem readCommission_run_flexFillEdits :
    textOrEmpty flexFill.row.execId ≠ "" ∧
      readCommission (run (step plainColumns) noTables flexFillEdits).commissions
        flexFill.row.execId =
        (lastSaid (history plainColumns noTables flexFillEdits)
          (textOrEmpty flexFill.row.execId)).or
          (readCommission noTables.commissions flexFill.row.execId) :=
  have hexec : textOrEmpty flexFill.row.execId ≠ "" := by decide +kernel
  ⟨hexec, readCommission_run plainColumns noTables flexFillEdits flexFill.row hexec⟩

end Portfolio.Commissions
