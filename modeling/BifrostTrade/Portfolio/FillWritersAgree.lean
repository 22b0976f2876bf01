import BifrostTrade.Portfolio.FillWriters

/-!
# Where the writers of fills agree

Both writers send the same values but for the execution id, the contract key and the table, and fail
on the same rows but for these.  A row on which not both fail is stored alike if it is no Flex or
journal row, its execution id counts as true, and no plain key is built for it; otherwise there are
tables that tell the two apart.
-/

namespace Portfolio.FillWriters

open Py Persistence Commissions GatewayFills
open InstanceState (dropDashes twsSources)

/-! ## What the writers leave -/

/-- The raw TWS rows and the commissions. -/
def Db.tables (db : Db) : Option (Sql.Store (RawRow.clash .tws)) × CommissionTable :=
  (db.raw .tws, db.commissions)

/-- Both writers leave the same tables for a row, and one fails exactly when the other does. -/
def Agree (d : Database) (db : Db) (row : Fields) : Prop :=
  (writeAccountExecutions d db [row]).map Db.tables =
    (writeAccountExecutionsToDb d db [row]).map Db.tables

/-- The driver cannot send a value of a row or, where the table is there, a column does not take
what is sent to it. -/
def Database.Refuses (d : Database) (there : Bool) (sent : Name → Param) : Prop :=
  (∃ c ∈ cols, d.sends (sent c) = false) ∨
    there = true ∧ ∃ c ∈ cols, d.cell (columnType c) (sent c) = none

section Rows

variable (d : Database) (there : RawTable → Bool) (row : Fields)

/-- A commission is to be written, and it raises or its columns refuse it. -/
def CommissionFails (execId : PayloadValue) : Prop :=
  WritesCommission execId row ∧ sentCommission d execId row = none

/-- What keeps the sink from storing a row: the TWS table is missing, a part of the key raises, or
what is sent is refused. -/
def SinkFails : Prop :=
  there .tws = false ∨ (∀ sent ∈ sinkSent row, d.Refuses true sent) ∨
    CommissionFails d row (row .execId)

/-- What keeps `write_account_executions_to_db` from storing a row: a part of the key raises, or
what is sent is refused. -/
def AccountsFails : Prop :=
  (∀ sent ∈ accountsSent row, d.Refuses (there (rawTable row)) sent) ∨
    CommissionFails d row (accountsExecId row)

/-- The row is an option's, as both writers read it. -/
def IsOpt : Prop := (stripOrEmpty (row .secType)).map upper = some "OPT"

/-- The source of the row is one of TWS. -/
def IsTws : Prop := ∃ source ∈ stripOrEmpty (row .source), source ∈ twsSources

/-- A commission that is written and is no number. -/
def CommissionRaises : Prop :=
  WritesCommission (row .execId) row ∧ storedValue (row .commission) (sourceText row) = none

/-- A kind of security or a source that is no text, parts of the key of a TWS option that are not
read, or the commission. -/
def Raises : Prop :=
  stripOrEmpty (row .secType) = none ∨ stripOrEmpty (row .source) = none ∨
    IsOpt row ∧ IsTws row ∧ optFields row = none ∨ CommissionRaises row

instance (refuses : Bool) (sent : Name → Param) : Decidable (d.Refuses refuses sent) :=
  inferInstanceAs (Decidable (_ ∨ _ ∧ _))

instance (execId : PayloadValue) : Decidable (CommissionFails d row execId) :=
  inferInstanceAs (Decidable (_ ∧ _))

instance : Decidable (SinkFails d there row) := inferInstanceAs (Decidable (_ ∨ _ ∨ _))

instance : Decidable (IsOpt row) := inferInstanceAs (Decidable (_ = _))

instance : Decidable (IsTws row) := inferInstanceAs (Decidable (∃ _ ∈ _, _))

/-- The writers send the same statement. -/
structure SentAlike : Prop where
  execId : (row .execId).truthy = true
  source : row .source ≠ .text "flex_trades" ∧ row .source ≠ .text "journal_closed"
  key : IsOpt row → ∃ f ∈ optFields row,
    f.symKey = "" ∨ (row .contractKey).truthy = true ∨ IsTws row ∧ f.twsKey.isSome = true

end Rows

/-! ## Keys -/

section Keys

variable {row : Fields}

theorem pipe_mem_optKey (symbol expiry : String) (strike : Option Double) (right : String) :
    '|' ∈ (optKey symbol expiry strike right).toList := by
  simp [optKey, String.toList_append]

theorem optKey_ne_empty (symbol expiry : String) (strike : Option Double) (right : String) :
    optKey symbol expiry strike right ≠ "" := by
  intro h
  have hpipe := pipe_mem_optKey symbol expiry strike right
  rw [h] at hpipe
  exact absurd hpipe (by decide)

theorem twsKey_ne_empty {f : OptFields} {key : String} (h : f.twsKey = some key) : key ≠ "" := by
  unfold OptFields.twsKey at h
  split_ifs at h
  obtain ⟨k, -, hlocal⟩ := Option.bind_eq_some_iff.1 h
  obtain ⟨localSymbol, -, rfl⟩ := Option.map_eq_some_iff.1 hlocal
  exact optKey_ne_empty _ _ _ _

theorem truthy_twsKeyed {f : OptFields} (h : f.twsKey.isSome = true) :
    (twsKeyed row f.twsKey).truthy = true := by
  obtain ⟨key, hkey⟩ := Option.isSome_iff_exists.1 h
  have hne := twsKey_ne_empty hkey
  simp [twsKeyed, hkey, hne, PayloadValue.truthy]

/-- The key after the rule for TWS sources, of an option whose parts are read. -/
def keptKey (row : Fields) (source : String) (f : OptFields) : PayloadValue :=
  if source ∈ twsSources then twsKeyed row f.twsKey else row .contractKey

theorem accountsKey_of_opt {secType source : String} {f : OptFields}
    (hsec : stripOrEmpty (row .secType) = some secType) (hopt : upper secType = "OPT")
    (hsource : stripOrEmpty (row .source) = some source) (hf : optFields row = some f) :
    accountsKey row = some (keptKey row source f) := by
  have htws : twsExecutionOptKey (row .symbol) (row .expiry) (row .strike) (row .optionRight) =
      some f.twsKey := by
    rw [twsExecutionOptKey, show executionOptFields _ _ _ _ = some f from hf, Option.map_some]
  rw [accountsKey, hsec, Option.bind_some, if_pos hopt, hsource, Option.bind_some, htws, keptKey]
  split_ifs <;> rfl

theorem sinkKey_of_opt {secType source : String} {f : OptFields}
    (hsec : stripOrEmpty (row .secType) = some secType) (hopt : upper secType = "OPT")
    (hsource : stripOrEmpty (row .source) = some source) (hf : optFields row = some f) :
    sinkKey row = some (if (keptKey row source f).truthy = false ∧ f.symKey ≠ "" then
      .text f.plainKey else keptKey row source f) := by
  have htws : twsExecutionOptKey (row .symbol) (row .expiry) (row .strike) (row .optionRight) =
      some f.twsKey := by
    rw [twsExecutionOptKey, show executionOptFields _ _ _ _ = some f from hf, Option.map_some]
  rw [sinkKey, hsec, Option.bind_some, if_pos hopt, hf, Option.bind_some, hsource,
    Option.bind_some, htws, keptKey]
  by_cases hsrc : source ∈ twsSources
  · rw [if_pos hsrc, if_pos hsrc, Option.map_some, Option.map_some]
  · rw [if_neg hsrc, if_neg hsrc, Option.map_some]

theorem key_of_not_opt {secType : String} (hsec : stripOrEmpty (row .secType) = some secType)
    (hopt : upper secType ≠ "OPT") :
    sinkKey row = some (row .contractKey) ∧ accountsKey row = some (row .contractKey) := by
  rw [sinkKey, accountsKey, hsec, Option.bind_some, Option.bind_some, if_neg hopt, if_neg hopt]
  exact ⟨rfl, rfl⟩

theorem isOpt_iff {secType : String} (hsec : stripOrEmpty (row .secType) = some secType) :
    IsOpt row ↔ upper secType = "OPT" := by
  rw [IsOpt, hsec, Option.map_some, Option.some_inj]

theorem isTws_iff {source : String} (hsource : stripOrEmpty (row .source) = some source) :
    IsTws row ↔ source ∈ twsSources := by
  rw [IsTws, hsource]
  simp

/-- Where no plain key is built the keys are the same. -/
theorem sinkKey_eq (h : SentAlike row) (hsource : stripOrEmpty (row .source) ≠ none) :
    sinkKey row = accountsKey row := by
  obtain ⟨source, hsource⟩ := Option.ne_none_iff_exists'.1 hsource
  cases hsec : stripOrEmpty (row .secType) with
  | none => rw [sinkKey, accountsKey, hsec, Option.bind_none, Option.bind_none]
  | some secType =>
    by_cases hopt : upper secType = "OPT"
    · obtain ⟨f, hf, hkey⟩ := h.key ((isOpt_iff hsec).2 hopt)
      rw [sinkKey_of_opt hsec hopt hsource hf, accountsKey_of_opt hsec hopt hsource hf, if_neg]
      rintro ⟨hfalsy, hsym⟩
      rcases hkey with hempty | hcontract | ⟨htws, hsome⟩
      · exact hsym hempty
      · -- the row's own key is kept, or that of TWS takes its place
        rw [keptKey] at hfalsy
        split_ifs at hfalsy with hsrc
        · cases htws : f.twsKey with
          | none =>
            rw [htws, twsKeyed, hcontract] at hfalsy
            cases hfalsy
          | some key =>
            rw [truthy_twsKeyed (by rw [htws]; rfl)] at hfalsy
            cases hfalsy
        · rw [hcontract] at hfalsy
          cases hfalsy
      · rw [keptKey, if_pos ((isTws_iff hsource).1 htws), truthy_twsKeyed hsome] at hfalsy
        cases hfalsy
    · obtain ⟨hsink, haccounts⟩ := key_of_not_opt hsec hopt
      rw [hsink, haccounts]

end Keys

/-! ## Rows sent alike -/

theorem accountsTime_eq (v : PayloadValue) : accountsTime v = sinkTime v := by
  cases v with
  | bool b => cases b <;> decide +kernel
  | int n => rw [accountsTime, sinkTime, fromTimestamp_int]
  | null => rfl
  | float x => rfl
  | text s => rfl
  | container empty repr => rfl

section Sent

variable {d : Database} {there : RawTable → Bool} {db : Db} {row : Fields}

theorem accountsExecId_of_truthy (haccepted : Accepted row) (h : (row .execId).truthy = true) :
    accountsExecId row = row .execId := by
  have hblank := (haccepted.required .execId (by decide)).2
  rw [accountsExecId, if_neg]
  rintro (hfalsy | hempty)
  · rw [h] at hfalsy
    cases hfalsy
  · exact hblank hempty

/-- An execution id that does not count as true is not sent: these rows have no trade id. -/
theorem accountsExecId_of_falsy (haccepted : Accepted row) (h : (row .execId).truthy = false) :
    accountsExecId row = .null := by
  obtain ⟨fill, rfl, -⟩ := haccepted
  rw [accountsExecId, if_pos (.inl h), if_neg]
  rw [executionRow_eq_null .tradeId (by decide) (by decide)]
  simp [PayloadValue.truthy]

theorem rawTable_eq (h : SentAlike row) : rawTable row = .tws := by
  rw [rawTable, if_neg h.source.1, if_neg h.source.2]

theorem sent_eq (haccepted : Accepted row) (h : SentAlike row) :
    sinkSent row = accountsSent row := by
  rw [sinkSent, accountsSent]
  cases hsource : stripOrEmpty (row .source) with
  | none => simp only [Option.map_none, Option.bind_fun_none]
  | some source =>
    have hkey := sinkKey_eq h (by rw [hsource]; exact Option.some_ne_none source)
    simp only [hkey, accountsExecId_of_truthy haccepted h.execId, accountsTime_eq]

/-- Where the TWS table is there, the two statements on it are one. -/
theorem accountsRaw_tws {execId : PayloadValue} {sent : Name → Param}
    (htws : (db.raw .tws).isSome = true) (start : Db) :
    accountsRaw d start db .tws execId sent = sinkRaw d db execId sent := by
  obtain ⟨rows, hrows⟩ := Option.isSome_iff_exists.1 htws
  simp only [accountsRaw, sinkRaw, execute, hrows, reduceCtorEq, if_false]

/-- On a row that is sent alike the two writers do the same. -/
theorem sinkRow_eq (haccepted : Accepted row) (h : SentAlike row)
    (htws : (db.raw .tws).isSome = true) (start : Db) :
    sinkRow d db row = accountsRow d start db row := by
  simp only [sinkRow, accountsRow, sent_eq haccepted h, accountsExecId_of_truthy haccepted h.execId,
    rawTable_eq h, accountsRaw_tws htws start]

/-! ## Rows that fail -/

theorem execute_of_refuses {t : RawTable} {sent : Name → Param} {missing : Option Db}
    {statement : Sql.Store (RawRow.clash t) → (Name → Cell) → Option Db}
    (h : d.Refuses (db.raw t).isSome sent) : execute d db t sent missing statement = none := by
  rw [execute]
  split_ifs with hsends
  · rcases h with ⟨c, hc, hunsent⟩ | ⟨hthere, c, hc, hrefused⟩
    · rw [hsends c hc] at hunsent
      cases hunsent
    · obtain ⟨rows, hrows⟩ := Option.isSome_iff_exists.1 hthere
      have hcells : d.cells sent = none := by
        rw [Database.cells, if_neg]
        intro htaken
        have := htaken c hc
        rw [hrefused] at this
        cases this
      simp only [hrows, hcells, Option.bind_none]
  · rfl

theorem writeCommission_of_fails {execId : PayloadValue} (h : CommissionFails d row execId) :
    writeCommission d db execId row = none := by
  rw [writeCommission, if_pos h.1, h.2, Option.map_none]

theorem sinkRow_of_fails (h : SinkFails d there row)
    (hthere : ∀ t, (db.raw t).isSome = there t) : sinkRow d db row = none := by
  refine Option.bind_eq_none_iff.2 fun sent hsent => ?_
  rcases h with hmissing | hrefused | hcommission
  · have hnone : db.raw .tws = none := by
      rw [← hthere, Option.isSome_eq_false_iff, Option.isNone_iff_eq_none] at hmissing
      exact hmissing
    rw [sinkRaw, execute, hnone, ite_self, Option.bind_none]
  · have hraw : sinkRaw d db (row .execId) sent = none := by
      cases hrows : db.raw .tws with
      | none => rw [sinkRaw, execute, hrows, ite_self]
      | some rows => exact execute_of_refuses (by rw [hrows]; exact hrefused sent hsent)
    rw [hraw, Option.bind_none]
  · exact Option.bind_eq_none_iff.2 fun _ _ => writeCommission_of_fails hcommission

theorem accountsRow_of_fails (h : AccountsFails d there row)
    (hthere : ∀ t, (db.raw t).isSome = there t) (start : Db) :
    accountsRow d start db row = none := by
  refine Option.bind_eq_none_iff.2 fun sent hsent => ?_
  rcases h with hrefused | hcommission
  · rw [accountsRaw, execute_of_refuses (by rw [hthere]; exact hrefused sent hsent),
      Option.bind_none]
  · exact Option.bind_eq_none_iff.2 fun _ _ => writeCommission_of_fails hcommission

theorem commissionFails_of_raises (h : CommissionRaises row) :
    CommissionFails d row (row .execId) := by
  refine ⟨h.1, ?_⟩
  refine Option.bind_eq_none_iff.2 fun key _ => Option.bind_eq_none_iff.2 fun key _ => ?_
  rw [h.2, Option.bind_none]

/-- Where both raise, both fail. -/
theorem fails_of_raises (haccepted : Accepted row) (h : Raises row) :
    SinkFails d there row ∧ AccountsFails d there row := by
  rcases h with hsec | hsource | ⟨hopt, htws, hf⟩ | hcommission
  · have hsink : sinkSent row = none := by rw [sinkSent, sinkKey, hsec]; rfl
    have haccounts : accountsSent row = none := by rw [accountsSent, accountsKey, hsec]; rfl
    exact ⟨.inr (.inl (by simp [hsink])), .inl (by simp [haccounts])⟩
  · have hsink : sinkSent row = none := by
      rw [sinkSent, hsource]
      exact Option.bind_fun_none _
    have haccounts : accountsSent row = none := by
      rw [accountsSent, hsource]
      exact Option.bind_fun_none _
    exact ⟨.inr (.inl (by simp [hsink])), .inl (by simp [haccounts])⟩
  · obtain ⟨secType, hsec, hupper⟩ := Option.map_eq_some_iff.1 hopt
    obtain ⟨source, hsource, hsrc⟩ := htws
    have htwsKey : twsExecutionOptKey (row .symbol) (row .expiry) (row .strike)
        (row .optionRight) = none := by
      rw [twsExecutionOptKey, show executionOptFields _ _ _ _ = none from hf, Option.map_none]
    have hsink : sinkSent row = none := by
      rw [sinkSent, sinkKey, hsec, Option.bind_some, if_pos hupper, hf]
      rfl
    have haccounts : accountsSent row = none := by
      rw [accountsSent, accountsKey, hsec, Option.bind_some, if_pos hupper, hsource,
        Option.bind_some, if_pos hsrc, htwsKey]
      rfl
    exact ⟨.inr (.inl (by simp [hsink])), .inl (by simp [haccounts])⟩
  · refine ⟨.inr (.inr (commissionFails_of_raises hcommission)), .inr ?_⟩
    rw [accountsExecId_of_truthy haccepted hcommission.1.1]
    exact commissionFails_of_raises hcommission

/-- The columns that both writers send as the row has them. -/
theorem fails_of_refused {c : Name} (hc : c ∈ cols)
    (hname : c ≠ .execId ∧ c ≠ .time ∧ c ≠ .contractKey ∧ c ≠ .tradeDate)
    (hthere : there (rawTable row) = true)
    (h : d.cell (columnType c) (.value (row c)) = none) :
    SinkFails d there row ∧ AccountsFails d there row := by
  have hvals : ∀ execId key execTime day, vals row execId key execTime day c = .value (row c) := by
    intro execId key execTime day
    cases c <;> simp_all [vals]
  refine ⟨.inr (.inl fun sent hsent => .inr ⟨rfl, c, hc, ?_⟩),
    .inl fun sent hsent => .inr ⟨hthere, c, hc, ?_⟩⟩
  · obtain ⟨key, -, hsent⟩ := Option.bind_eq_some_iff.1 hsent
    obtain ⟨source, -, rfl⟩ := Option.map_eq_some_iff.1 hsent
    rw [hvals, h]
  · obtain ⟨key, -, hsent⟩ := Option.bind_eq_some_iff.1 hsent
    obtain ⟨source, -, rfl⟩ := Option.map_eq_some_iff.1 hsent
    rw [hvals, h]

end Sent

/-! ## Whole calls -/

section Calls

variable {d : Database} {there : RawTable → Bool} {db db' : Db} {row : Fields}

theorem raw_writeCommission {execId : PayloadValue}
    (h : writeCommission d db execId row = some db') : db'.raw = db.raw := by
  unfold writeCommission at h
  split_ifs at h
  · obtain ⟨new, -, rfl⟩ := Option.map_eq_some_iff.1 h
    rfl
  · obtain rfl := Option.some.inj h
    rfl

theorem raw_stored (db : Db) (t : RawTable) (rows : Sql.Store (RawRow.clash t)) :
    (db.stored t rows).raw = Function.update db.raw t (some rows) := rfl

/-- The sink writes to a TWS table that is there. -/
theorem of_sinkRaw {execId : PayloadValue} {sent : Name → Param}
    (h : sinkRaw d db execId sent = some db') :
    (db.raw .tws).isSome = true ∧ ∃ rows, db' = db.stored .tws rows := by
  have hinsert : ∀ rows cells, db.insert .tws rows cells = some db' →
      ∃ rows, db' = db.stored .tws rows := by
    intro rows cells hdb
    obtain ⟨rows', -, rfl⟩ := Option.map_eq_some_iff.1 hdb
    exact ⟨rows', rfl⟩
  rw [sinkRaw, execute] at h
  split_ifs at h with hsends hexec
  · split at h
    · cases h
    · next hrows =>
      refine ⟨by rw [hrows]; rfl, ?_⟩
      obtain ⟨cells, -, hskip⟩ := Option.bind_eq_some_iff.1 h
      rw [Db.insertOrSkip] at hskip
      split_ifs at hskip
      · exact ⟨_, (Option.some.inj hskip).symm⟩
      · exact hinsert _ _ hskip
  · split at h
    · cases h
    · next hrows =>
      refine ⟨by rw [hrows]; rfl, ?_⟩
      obtain ⟨cells, -, hskip⟩ := Option.bind_eq_some_iff.1 h
      exact hinsert _ _ hskip

/-- The tables that are there stay so. -/
theorem there_sinkRow (h : sinkRow d db row = some db')
    (hthere : ∀ t, (db.raw t).isSome = there t) (t : RawTable) :
    (db'.raw t).isSome = there t := by
  obtain ⟨sent, -, h⟩ := Option.bind_eq_some_iff.1 h
  obtain ⟨db₁, hraw, hcommission⟩ := Option.bind_eq_some_iff.1 h
  obtain ⟨htws, rows, rfl⟩ := of_sinkRaw hraw
  rw [raw_writeCommission hcommission, raw_stored, ← hthere]
  by_cases ht : t = .tws
  · subst ht
    rw [Function.update_self, htws]
    rfl
  · rw [Function.update_of_ne ht]

/-- **The same fills through both writers.**  Calls with rows on which both fail or that are sent
alike leave the same tables, and one fails exactly when the other does. -/
theorem writersAgree_calls {rows : List Fields} (haccepted : ∀ row ∈ rows, Accepted row)
    (hthere : ∀ t, (db.raw t).isSome = there t) (htws : there .tws = true)
    (h : ∀ row ∈ rows,
      SinkFails d there row ∧ AccountsFails d there row ∨ SentAlike row) :
    writeAccountExecutions d db rows = writeAccountExecutionsToDb d db rows := by
  have hloop : ∀ start, rows.foldlM (sinkRow d) db = rows.foldlM (accountsRow d start) db := by
    intro start
    induction rows generalizing db with
    | nil => rfl
    | cons row rows ih =>
      rw [List.forall_mem_cons] at haccepted h
      have hrow : sinkRow d db row = accountsRow d start db row := by
        rcases h.1 with ⟨hsink, haccounts⟩ | halike
        · rw [sinkRow_of_fails hsink hthere, accountsRow_of_fails haccounts hthere]
        · exact sinkRow_eq haccepted.1 halike ((hthere .tws).trans htws) start
      rw [List.foldlM_cons, List.foldlM_cons, ← hrow]
      cases hsink : sinkRow d db row with
      | none => rfl
      | some db' => exact ih haccepted.2 (there_sinkRow hsink hthere) h.2
  exact hloop db

theorem writeAccountExecutions_singleton :
    writeAccountExecutions d db [row] = sinkRow d db row := by
  simp [writeAccountExecutions]

theorem writeAccountExecutionsToDb_singleton :
    writeAccountExecutionsToDb d db [row] = accountsRow d db db row := by
  simp [writeAccountExecutionsToDb]

end Calls

/-! ## Tables that tell the writers apart -/

/-- Tables without rows. -/
def noRows (there : RawTable → Bool) : Db where
  raw t := if there t then some .empty else none
  nextId := fun _ => 1
  commissions := .empty

/-- A table with one row. -/
def single (t : RawTable) (r : RawRow) : Sql.Store (RawRow.clash t) :=
  ⟨[r], List.pairwise_singleton _ _⟩

section Apart

variable {d : Database} {there : RawTable → Bool} {row : Fields} {t : RawTable}
  {sent : Name → Param} {execId : PayloadValue}

theorem there_noRows (t : RawTable) : ((noRows there).raw t).isSome = there t := by
  cases h : there t <;> simp [noRows, h]

theorem insert_empty (db : Db) (cells : Name → Cell) :
    db.insert t .empty cells = some (db.stored t (single t ⟨db.nextId t, cells⟩)) := by
  have hfree : ∀ r ∈ (Sql.Store.empty : Sql.Store (RawRow.clash t)).rows,
      ¬ RawRow.clash t r ⟨db.nextId t, cells⟩ := fun r hr => absurd hr List.not_mem_nil
  rw [Db.insert, Sql.Store.insert?, dif_pos hfree]
  rfl

theorem insertOrSkip_empty (db : Db) (cells : Name → Cell) :
    db.insertOrSkip t .empty cells = db.insert t .empty cells := rfl

theorem upsert_empty (db : Db) (cells : Name → Cell) :
    db.upsert t .empty cells = db.insert t .empty cells := rfl

/-- What is not refused reaches the statement, where the table is there. -/
theorem execute_noRows {missing : Option Db}
    {statement : Sql.Store (RawRow.clash t) → (Name → Cell) → Option Db}
    (h : ¬ d.Refuses (there t) sent) :
    execute d (noRows there) t sent missing statement =
      if there t then statement .empty (d.stored sent) else missing := by
  rw [Database.Refuses, not_or] at h
  have hsends : ∀ c ∈ cols, d.sends (sent c) = true := by
    intro c hc
    by_contra hunsent
    exact h.1 ⟨c, hc, Bool.not_eq_true _ ▸ hunsent⟩
  rw [execute, if_pos hsends]
  cases hthere : there t with
  | false => simp only [noRows, hthere, Bool.false_eq_true, if_false]
  | true =>
    have htaken : ∀ c ∈ cols, (d.cell (columnType c) (sent c)).isSome = true := by
      intro c hc
      by_contra hrefused
      exact h.2 ⟨hthere, c, hc, Option.not_isSome_iff_eq_none.1 hrefused⟩
    simp only [noRows, hthere, if_true, Database.cells, if_pos htaken, Option.bind_some]

/-- Into an empty table every statement inserts. -/
theorem accountsRaw_noRows (start : Db) (h : ¬ d.Refuses (there t) sent) :
    accountsRaw d start (noRows there) t execId sent =
      if there t then some ((noRows there).stored t (single t ⟨1, d.stored sent⟩))
      else some start := by
  rw [accountsRaw, execute_noRows h]
  split_ifs <;> simp only [insertOrSkip_empty, upsert_empty, insert_empty] <;> rfl

theorem sinkRaw_noRows (htws : there .tws = true) (h : ¬ d.Refuses true sent) :
    sinkRaw d (noRows there) execId sent =
      some ((noRows there).stored .tws (single .tws ⟨1, d.stored sent⟩)) := by
  rw [sinkRaw, execute_noRows (by rwa [htws]), if_pos htws]
  split_ifs <;> simp only [insertOrSkip_empty, insert_empty] <;> rfl

theorem exists_writeCommission (db : Db) (h : ¬ CommissionFails d row execId) :
    ∃ db', writeCommission d db execId row = some db' := by
  rw [writeCommission]
  split_ifs with hwrites
  · obtain ⟨new, hnew⟩ := Option.ne_none_iff_exists'.1 fun hnone => h ⟨hwrites, hnone⟩
    rw [hnew, Option.map_some]
    exact ⟨_, rfl⟩
  · exact ⟨db, rfl⟩

theorem exists_sent {sends : Option (Name → Param)} {there : Bool}
    (h : ¬ ∀ sent ∈ sends, d.Refuses there sent) :
    ∃ sent, sends = some sent ∧ ¬ d.Refuses there sent := by
  push Not at h
  obtain ⟨sent, hsent, hrefused⟩ := h
  exact ⟨sent, hsent, hrefused⟩

/-- What the sink leaves of a row in tables without rows. -/
theorem exists_sinkRow (h : ¬ SinkFails d there row) :
    there .tws = true ∧ ∃ sent db, sinkSent row = some sent ∧
      sinkRow d (noRows there) row = some db ∧
      db.raw .tws = some (single .tws ⟨1, d.stored sent⟩) := by
  simp only [SinkFails, not_or, Bool.not_eq_false] at h
  obtain ⟨htws, hsent, hcommission⟩ := h
  obtain ⟨sent, hsent, hrefused⟩ := exists_sent hsent
  obtain ⟨db, hdb⟩ := exists_writeCommission
    ((noRows there).stored .tws (single .tws ⟨1, d.stored sent⟩)) hcommission
  refine ⟨htws, sent, db, hsent, ?_, ?_⟩
  · rw [sinkRow, hsent, Option.bind_some, sinkRaw_noRows htws hrefused, Option.bind_some, hdb]
  · rw [raw_writeCommission hdb, raw_stored, Function.update_self]

theorem exists_accountsRow (h : ¬ AccountsFails d there row) :
    ∃ db, accountsRow d (noRows there) (noRows there) row = some db := by
  rw [AccountsFails, not_or] at h
  obtain ⟨sent, hsent, hrefused⟩ := exists_sent h.1
  have hraw : ∃ db, accountsRaw d (noRows there) (noRows there) (rawTable row)
      (accountsExecId row) sent = some db := by
    rw [accountsRaw_noRows _ hrefused]
    split_ifs
    · exact ⟨_, rfl⟩
    · exact ⟨_, rfl⟩
  obtain ⟨db, hdb⟩ := hraw
  obtain ⟨db', hdb'⟩ := exists_writeCommission db h.2
  refine ⟨db', ?_⟩
  simp only [accountsRow, hsent, Option.bind_some, hdb, hdb']

/-- What `write_account_executions_to_db` leaves of a row in tables without rows. -/
theorem of_accountsRow {db : Db}
    (h : accountsRow d (noRows there) (noRows there) row = some db) :
    ∃ sent, accountsSent row = some sent ∧ db.raw .tws =
      if rawTable row = .tws ∧ there .tws then some (single .tws ⟨1, d.stored sent⟩)
      else (noRows there).raw .tws := by
  obtain ⟨sent, hsent, h⟩ := Option.bind_eq_some_iff.1 h
  obtain ⟨db₁, hraw, hcommission⟩ := Option.bind_eq_some_iff.1 h
  refine ⟨sent, hsent, ?_⟩
  have hrefused : ¬ d.Refuses (there (rawTable row)) sent := by
    intro hrefused
    rw [accountsRaw, execute_of_refuses (by rwa [there_noRows])] at hraw
    cases hraw
  rw [accountsRaw_noRows _ hrefused] at hraw
  rw [raw_writeCommission hcommission]
  by_cases htable : rawTable row = .tws
  · rw [htable] at hraw
    split_ifs at hraw with htws
    · obtain rfl := Option.some.inj hraw
      rw [if_pos ⟨htable, htws⟩, raw_stored, Function.update_self]
    · obtain rfl := Option.some.inj hraw
      rw [if_neg fun hboth => htws hboth.2]
  · rw [if_neg fun hboth => htable hboth.1]
    split_ifs at hraw
    · obtain rfl := Option.some.inj hraw
      rw [raw_stored, Function.update_of_ne (Ne.symm htable)]
    · obtain rfl := Option.some.inj hraw
      rfl

theorem textCell_ne_none {v : PayloadValue} (h : v ≠ .null) : d.textCell v ≠ none := by
  cases v <;> simp_all [Database.textCell]

/-- A value that does not count as true is not stored as the key of an option. -/
theorem textCell_ne_optKey {v : PayloadValue} (h : v.truthy = false) (symbol expiry : String)
    (strike : Option Double) (right : String) :
    d.textCell v ≠ some (optKey symbol expiry strike right) := by
  have hpipe := pipe_mem_optKey symbol expiry strike right
  have hprinted : some (d.printed v) ≠ some (optKey symbol expiry strike right) := by
    intro heq
    rw [← Option.some.inj heq] at hpipe
    exact d.pipe_not_mem_printed v h hpipe
  cases v with
  | null => exact (Option.some_ne_none _).symm
  | text s =>
    obtain rfl : s = "" := by simpa [PayloadValue.truthy] using h
    intro heq
    rw [← Option.some.inj heq] at hpipe
    exact absurd hpipe (by decide)
  | bool b => exact hprinted
  | int n => exact hprinted
  | float x => exact hprinted
  | container empty repr => exact hprinted

theorem stored_text {c : Name} (hc : c ∈ cols) (htype : columnType c = .text) {v : PayloadValue}
    (h : sent c = .value v) : d.stored sent c = (d.textCell v).map .text := by
  rw [Database.stored, if_pos hc, htype, h]
  rfl

/-- Two rows that are stored alike have the same texts in a column. -/
theorem textCell_of_single {sent' : Name → Param} {c : Name} {v v' : PayloadValue} (hc : c ∈ cols)
    (htype : columnType c = .text) (hv : sent c = .value v) (hv' : sent' c = .value v')
    (h : some (single t ⟨1, d.stored sent⟩) = some (single t ⟨1, d.stored sent'⟩)) :
    d.textCell v = d.textCell v' := by
  have hrows := congrArg Sql.Store.rows (Option.some.inj h)
  have hcells : d.stored sent = d.stored sent' := by
    simpa [single] using hrows
  have hcell := congrFun hcells c
  rw [stored_text hc htype hv, stored_text hc htype hv'] at hcell
  exact Option.map_injective (fun _ _ heq => Stored.text.inj heq) hcell

/-- A row that the sink stores, and on which the writers agree in tables without rows, is sent
alike. -/
theorem sentAlike_of_agree (haccepted : Accepted row) (h : ¬ SinkFails d there row)
    (hagree : Agree d (noRows there) row) : SentAlike row := by
  obtain ⟨htws, sentS, dbS, hsentS, hrowS, hrawS⟩ := exists_sinkRow h
  rw [Agree, writeAccountExecutions_singleton, writeAccountExecutionsToDb_singleton, hrowS,
    Option.map_some] at hagree
  obtain ⟨dbA, hrowA, htables⟩ := Option.map_eq_some_iff.1 hagree.symm
  have hraw : dbA.raw .tws = dbS.raw .tws := congrArg Prod.fst htables
  obtain ⟨sentA, hsentA, hrawA⟩ := of_accountsRow hrowA
  have htable : rawTable row = .tws := by
    by_contra hne
    rw [hrawA, hrawS, if_neg fun hboth => hne hboth.1] at hraw
    simp [noRows, htws, single, Sql.Store.empty] at hraw
  rw [hrawA, hrawS, if_pos ⟨htable, htws⟩] at hraw
  obtain ⟨keyS, hkeyS, hsentS⟩ := Option.bind_eq_some_iff.1 hsentS
  obtain ⟨source, hsource, rfl⟩ := Option.map_eq_some_iff.1 hsentS
  obtain ⟨keyA, hkeyA, hsentA⟩ := Option.bind_eq_some_iff.1 hsentA
  rw [hsource, Option.map_some] at hsentA
  obtain rfl := Option.some.inj hsentA
  have hexec := textCell_of_single (c := .execId) (by decide) rfl rfl rfl hraw
  have hcontract := textCell_of_single (c := .contractKey) (by decide) rfl rfl rfl hraw
  refine ⟨?_, ?_, fun hopt => ?_⟩
  · by_contra hfalsy
    rw [accountsExecId_of_falsy haccepted (Bool.not_eq_true _ ▸ hfalsy)] at hexec
    exact textCell_ne_none (haccepted.required .execId (by decide)).1 hexec.symm
  · rw [rawTable] at htable
    split_ifs at htable with hflex hjournal
    exact ⟨hflex, hjournal⟩
  · obtain ⟨secType, hsec, hupper⟩ := Option.map_eq_some_iff.1 hopt
    have hf : optFields row ≠ none := by
      intro hf
      rw [sinkKey, hsec, Option.bind_some, if_pos hupper, hf, Option.bind_none] at hkeyS
      cases hkeyS
    obtain ⟨f, hf⟩ := Option.ne_none_iff_exists'.1 hf
    refine ⟨f, hf, ?_⟩
    by_contra hnot
    simp only [not_or] at hnot
    obtain ⟨hsym, hfalsy, htwsKey⟩ := hnot
    have hkept : (keptKey row source f).truthy = false := by
      rw [keptKey]
      split_ifs with hsrc
      · have hnone : f.twsKey = none := by
          by_contra hsome
          exact htwsKey ⟨(isTws_iff hsource).2 hsrc, Option.isSome_iff_ne_none.2 hsome⟩
        rw [hnone, twsKeyed]
        exact Bool.not_eq_true _ ▸ hfalsy
      · exact Bool.not_eq_true _ ▸ hfalsy
    rw [sinkKey_of_opt hsec hupper hsource hf, if_pos ⟨hkept, hsym⟩] at hkeyS
    rw [accountsKey_of_opt hsec hupper hsource hf] at hkeyA
    obtain rfl := Option.some.inj hkeyS
    obtain rfl := Option.some.inj hkeyA
    exact textCell_ne_optKey hkept _ _ _ _ hcontract

end Apart

/-! ## The two writers -/

/-- **Both writers of fills.**  For a row of an accepted fill the two writers leave the same raw TWS
row and the same commission, and one fails exactly when the other does, whatever the tables that are
there hold, if and only if both fail on the row, or the TWS table is there and the row is sent
alike. -/
theorem writersAgree_iff {fills : List (Option Fields)} {row : Fields}
    (h : row ∈ (executionRowsFromGatewayFills fills).1) (d : Database) (there : RawTable → Bool) :
    (∀ db, (∀ t, (db.raw t).isSome = there t) → Agree d db row) ↔
      SinkFails d there row ∧ AccountsFails d there row ∨
        there .tws = true ∧ SentAlike row := by
  have haccepted := accepted_of_mem h
  constructor
  · intro hagree
    have hempty := hagree (noRows there) there_noRows
    by_cases hsink : SinkFails d there row
    · refine .inl ⟨hsink, ?_⟩
      by_contra haccounts
      obtain ⟨db, hdb⟩ := exists_accountsRow haccounts
      rw [Agree, writeAccountExecutions_singleton, writeAccountExecutionsToDb_singleton,
        sinkRow_of_fails hsink there_noRows, hdb] at hempty
      cases hempty
    · exact .inr ⟨(exists_sinkRow hsink).1, sentAlike_of_agree haccepted hsink hempty⟩
  · rintro (⟨hsink, haccounts⟩ | ⟨htws, halike⟩) db hthere
    · rw [Agree, writeAccountExecutions_singleton, writeAccountExecutionsToDb_singleton,
        sinkRow_of_fails hsink hthere, accountsRow_of_fails haccounts hthere]
    · rw [Agree, writeAccountExecutions_singleton, writeAccountExecutionsToDb_singleton,
        sinkRow_eq haccepted halike ((hthere .tws).trans htws) db]

/-- What a text column stores of a value that is no text. -/
def ddlPrinted : PayloadValue → String
  | .bool b => if b then "true" else "false"
  | .container true _ => "\x7b\x7d"
  | v => v.str

theorem pipe_not_mem_ddlPrinted (v : PayloadValue) (h : v.truthy = false) :
    '|' ∉ (ddlPrinted v).toList := by
  cases v with
  | null => decide
  | bool b =>
    obtain rfl : b = false := h
    decide
  | int n =>
    obtain rfl : n = 0 := by simpa [PayloadValue.truthy] using h
    decide
  | float x =>
    obtain rfl : x = .fin 0 := by simpa [PayloadValue.truthy] using h
    exact pipe_not_mem_reprFloat 0
  | text s =>
    obtain rfl : s = "" := by simpa [PayloadValue.truthy] using h
    decide
  | container empty repr =>
    obtain rfl : empty = true := by simpa [PayloadValue.truthy] using h
    have hbraces : '|' ∉ "\x7b\x7d".toList := by decide
    exact hbraces

/-- The types of the DDL on numbers, dates and texts. -/
def ddlTypes : Database where
  adaptsList repr := repr.toList.head? = some '['
  printed := ddlPrinted
  float8
    | .bool _ => none
    | v => v.toDouble
  int8
    | .int n => if n.natAbs < 2 ^ 63 then some n else none
    | .text s => parseInt s
    | _ => none
  int4
    | .int n => if n.natAbs < 2 ^ 31 then some n else none
    | .text s => parseInt s
    | _ => none
  timestamptz _ := none
  date
    | .text s => strptimeDate s
    | _ => none
  jsonb
    | .text s => some s
    | _ => none
  pipe_not_mem_printed := pipe_not_mem_ddlPrinted

/-- An option fill as the gateway sends it, of a source and a strike. -/
def optionFill (source strike : PayloadValue) : Fields
  | .execId => .text "0000e0d5.66f0a1b2.01.01"
  | .account => .text "U0000003"
  | .symbol => .text "ZZQ"
  | .secType => .text "OPT"
  | .side => .text "BOT"
  | .shares => .float (.fin 2)
  | .price => .float (.fin (165 / 4))
  | .commission => .float (.fin 1)
  | .ts => .float (.fin 1790000000)
  | .source => source
  | .expiry => .text "20261120"
  | .strike => strike
  | .optionRight => .text "C"
  | _ => .null

/-- A fill of the gateway, which sends no source. -/
def clientRow : Fields := executionRowFromGatewayFill (optionFill .null (.float (.fin 40)))

example : accountsKey clientRow =
    some (.text "ZZQ  261120C00040000|OPT|20261120|40.0|C") := by decide +kernel

theorem writersAgree_iff_optionFill :
    clientRow ∈ (executionRowsFromGatewayFills [some (optionFill .null (.float (.fin 40)))]).1 ∧
      ((∀ db, (∀ t, (db.raw t).isSome = true) → Agree ddlTypes db clientRow) ↔
        SinkFails ddlTypes (fun _ => true) clientRow ∧
            AccountsFails ddlTypes (fun _ => true) clientRow ∨
          true = true ∧ SentAlike clientRow) :=
  have hmem := mem_of_missing (optionFill .null (.float (.fin 40))) (by decide +kernel)
  ⟨hmem, writersAgree_iff hmem ddlTypes fun _ => true⟩

-- both are refused: the strike is no number
example : ddlTypes.cell (columnType .strike) (.value (.text "n/a")) = none := by decide +kernel

/-- An option of another source: the sink builds `ZZQ|OPT|20261120|40.0|C`, the other writer no
key. -/
theorem not_agree_otherSource :
    ¬ ∀ (fills : List (Option Fields)) (row : Fields),
      row ∈ (executionRowsFromGatewayFills fills).1 →
        ∀ db, (∀ t, (db.raw t).isSome = true) → Agree ddlTypes db row := by
  intro hclaim
  have hmem := mem_of_missing (optionFill (.text "manual") (.float (.fin 40))) (by decide +kernel)
  have hagree := hclaim _ _ hmem (noRows fun _ => true) there_noRows
  have halike := sentAlike_of_agree (accepted_of_mem hmem) (by decide +kernel) hagree
  obtain ⟨f, hf, hkey⟩ := halike.key (by decide +kernel)
  have hparts : optFields (executionRowFromGatewayFill
      (optionFill (.text "manual") (.float (.fin 40)))) =
        some ⟨"ZZQ", "20261120", some (.fin 40), "C"⟩ := by decide +kernel
  obtain rfl := Option.some.inj (hparts.symm.trans hf)
  revert hkey
  decide +kernel

end Portfolio.FillWriters
