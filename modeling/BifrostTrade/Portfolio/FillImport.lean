import BifrostTrade.Lib.Runs
import BifrostTrade.Portfolio.ExecutionWriters
import BifrostTrade.Portfolio.TradeSlice

/-!
# The import of fills

`write_account_executions_to_db` of `portfolio/reader/accounts.py` with what `ExecutionWriters`
leaves out of it: tables that are missing, the commissions and the statistics.  A statement on a
missing table rolls the transaction back and the loop goes on, so that the rows before it are lost
and the call succeeds all the same; a Flex row whose trade is stored under another execution id
makes the call fail; and a row without an execution id is stored anew every time.  Imports without
these three keep every row once (`importsSucceed_of_safe`).
-/

namespace Portfolio

open Py Persistence

/-! ## Commissions -/

/-- A row of `commissions`. -/
structure CommissionRow where
  execId : String
  commission : Option Double
  currency : Option String
  realizedPnl : Option Double
  yield_ : Option Double
  yieldRedemptionDate : Option ℤ
  deriving DecidableEq

/-- `COALESCE(EXCLUDED.c, c)` in every column. -/
def CommissionRow.coalesce (new old : CommissionRow) : CommissionRow where
  execId := old.execId
  commission := new.commission.or old.commission
  currency := new.currency.or old.currency
  realizedPnl := new.realizedPnl.or old.realizedPnl
  yield_ := new.yield_.or old.yield_
  yieldRedemptionDate := new.yieldRedemptionDate.or old.yieldRedemptionDate

theorem CommissionRow.execId_coalesce (new old : CommissionRow) :
    (new.coalesce old).execId = old.execId := rfl

/-- A row of an import with its commission report. -/
structure FillRow extends ImportRow where
  commission : Option Double
  currency : Option String
  realizedPnl : Option Double
  yield_ : Option Double
  yieldRedemptionDate : Option ℤ

/-- `stored_commission`: the sign of a Flex statement. -/
def storedCommission (value : Option Double) (source : Option String) : Option Double :=
  value.map fun n =>
    if strip (textOrEmpty source) = "flex_trades" then n
    else if n = .fin 0 then .fin 0
    else n.neg

/-- `_zero_to_none`. -/
def zeroToNone {α : Type} [DecidableEq α] (zero : α) (value : Option α) : Option α :=
  value.filter fun x => x ≠ zero

/-- `_has_meaningful_commission` of one of the fields. -/
def FillRow.hasCommission (r : FillRow) : Bool :=
  (zeroToNone (.fin 0) r.commission).isSome ∨ (zeroToNone (.fin 0) r.realizedPnl).isSome ∨
    (nonBlank r.currency).isSome ∨ (zeroToNone (.fin 0) r.yield_).isSome ∨
    (zeroToNone 0 r.yieldRedemptionDate).isSome

/-- The row that `upsert_commission` sends; a zero has nothing to say. -/
def FillRow.commissionRow (r : FillRow) (execId : String) : CommissionRow where
  execId := execId
  commission := zeroToNone (.fin 0) (storedCommission r.commission r.source)
  currency := r.currency.filter fun c => strip c ≠ ""
  realizedPnl := zeroToNone (.fin 0) r.realizedPnl
  yield_ := zeroToNone (.fin 0) r.yield_
  yieldRedemptionDate := zeroToNone 0 r.yieldRedemptionDate

/-! ## The import -/

/-- The raw tables that are there, and the commissions. -/
structure FillDb where
  raw : (t : RawTable) → Option (Sql.Store (RawRow.clash t))
  commissions : Sql.Table CommissionRow.execId

/-- A raw table replaced. -/
def FillDb.withTable (db : FillDb) (t : RawTable) (rows : Sql.Store (RawRow.clash t)) : FillDb :=
  { db with raw := Function.update db.raw t (some rows) }

/-- `upsert_commission` for a row. -/
def writeCommission (db : FillDb) (r : FillRow) : FillDb :=
  match r.storedExecId with
  | none => db
  | some execId =>
      if r.hasCommission then
        let new := r.commissionRow execId
        { db with commissions := db.commissions.upsert new new.coalesce new.execId_coalesce }
      else db

/-- `stats_out`, about the TWS table. -/
structure FillStats where
  inserted : ℕ
  skippedDuplicate : ℕ
  missingTable : Bool
  insertedIds : List ℤ
  updatedIds : List ℤ
  skippedIds : List ℤ
  deriving DecidableEq

namespace FillStats

/-- Nothing counted. -/
def empty : FillStats := ⟨0, 0, false, [], [], []⟩

/-- A row was inserted; only TWS rows are counted. -/
def addInserted (stats : FillStats) (t : RawTable) (id : ℤ) : FillStats :=
  if t = .tws then
    { stats with inserted := stats.inserted + 1, insertedIds := stats.insertedIds ++ [id] }
  else stats

/-- A row was there already; only TWS rows are counted. -/
def addSkipped (stats : FillStats) (t : RawTable) (id : ℤ) : FillStats :=
  if t = .tws then
    { stats with
      skippedDuplicate := stats.skippedDuplicate + 1
      skippedIds := stats.skippedIds ++ [id] }
  else stats

/-- The ids it names. -/
def ids (stats : FillStats) : List ℤ := stats.insertedIds ++ stats.updatedIds ++ stats.skippedIds

end FillStats

/-- The state of a call: the tables before it, as its transaction sees them, and its statistics. -/
structure FillImport where
  committed : FillDb
  pending : FillDb
  stats : FillStats

/-- The import before its first row. -/
def FillImport.begin (db : FillDb) : FillImport := ⟨db, db, .empty⟩

/-- The insert of a row that no index keeps out. -/
def insertFill (st : FillImport) (r : FillRow) (rows : Sql.Store (RawRow.clash r.table)) :
    Option FillImport :=
  (rows.insert? r.row).map fun rows =>
    { st with
      pending := st.pending.withTable r.table rows
      stats := st.stats.addInserted r.table r.seqId.1 }

/-- The statement on the raw table of a row. -/
def writeRaw (st : FillImport) (r : FillRow) : Option FillImport :=
  match st.pending.raw r.table with
  | none =>
      -- `42P01`: the transaction starts again
      some { st with
        pending := st.committed
        stats := { st.stats with missingTable := true } }
  | some rows =>
      if r.storedExecId = none then insertFill st r rows
      else if r.table = .flex then
        (rows.upsert? (fun s => s.execId = r.storedExecId) r.row r.rowOver).map fun rows =>
          { st with pending := st.pending.withTable r.table rows }
      else match rows.rows.find? fun s => s.execId = r.storedExecId with
        | some s => some { st with stats := st.stats.addSkipped r.table s.id }
        | none => insertFill st r rows

/-- The loop's body; an error leaves the state in which it came. -/
def writeFillRow (st : FillImport) (r : FillRow) : Except FillImport FillImport :=
  match writeRaw st r with
  | none => .error st
  | some st => .ok { st with pending := writeCommission st.pending r }

/-- What a call returns and leaves. -/
structure FillResult where
  returned : Bool
  db : FillDb
  stats : FillStats

/-- `write_account_executions_to_db`. -/
def writeFills (db : FillDb) (rows : List FillRow) : FillResult :=
  match rows.foldlM writeFillRow (.begin db) with
  | .ok st => ⟨true, st.pending, st.stats⟩
  | .error st => ⟨false, st.committed, st.stats⟩

/-! ## What imports keep -/

/-- Every row whose table is there is stored once, and a Flex row with what came last. -/
structure Persisted (history : List FillRow) (db : FillDb) : Prop where
  once : ∀ r ∈ history, ∀ rows ∈ db.raw r.table, r.storedExecId.isSome ∧
    ∃ s ∈ rows.rows, s.execId = r.storedExecId ∧
      ∀ s' ∈ rows.rows, s'.execId = r.storedExecId → s' = s
  last : ∀ (pre : List FillRow) (r : FillRow) (post : List FillRow),
    history = pre ++ r :: post → r.table = .flex →
    (∀ later ∈ post, later.table = .flex → later.storedExecId ≠ r.storedExecId) →
    ∀ rows ∈ db.raw r.table, ∃ s ∈ rows.rows, r.rowOver s = s

/-- Every id of the statistics is that of a stored TWS row. -/
def StatsPersisted (stats : FillStats) (db : FillDb) : Prop :=
  ∀ id ∈ stats.ids, ∃ rows ∈ db.raw .tws, ∃ s ∈ rows.rows, s.id = id

/-- The tables after a call. -/
def fillStep (db : FillDb) (rows : List FillRow) : FillDb := (writeFills db rows).db

/-- Every call succeeds with true statistics, no table comes or goes, and every row is kept. -/
structure ImportsSucceed (start : FillDb) (batches : List (List FillRow)) : Prop where
  calls : Runs.Along fillStep start (fun _ db rows =>
    (writeFills db rows).returned = true ∧
      StatsPersisted (writeFills db rows).stats (writeFills db rows).db) batches
  tables : ∀ t, ((Runs.run fillStep start batches).raw t).isSome = (start.raw t).isSome
  persisted : Persisted batches.flatten (Runs.run fillStep start batches)

/-! ## Rows that an import keeps -/

/-- The account and the trade id of a stored row are those of a row of the import. -/
def SameTrade (r : FillRow) (s : RawRow) : Prop :=
  r.accountId.isSome ∧ textOrEmpty r.tradeId ≠ "" ∧ s.accountId = r.accountId ∧
    s.tradeId = r.tradeId

instance (r : FillRow) : DecidablePred (SameTrade r) := fun _ => inferInstanceAs (Decidable (_ ∧ _))

/-- A stored Flex row of the trade has the execution id of the row. -/
def OwnTrade (r : FillRow) (rows : Sql.Store (RawRow.clash r.table)) : Prop :=
  r.table = .flex → ∀ s ∈ rows.rows, SameTrade r s → s.execId = r.storedExecId

instance (r : FillRow) (rows : Sql.Store (RawRow.clash r.table)) : Decidable (OwnTrade r rows) :=
  inferInstanceAs (Decidable (_ → _))

/-- Where the row's table is missing the call has changed no raw table yet; where it is there the
row has an execution id, and its trade is under no other. -/
def Safe (st : FillImport) (r : FillRow) : Prop :=
  ((st.pending.raw r.table).isNone →
    ∀ t, (st.pending.raw t).map Sql.Store.rows = (st.committed.raw t).map Sql.Store.rows) ∧
  ∀ rows ∈ st.pending.raw r.table, r.storedExecId.isSome ∧ OwnTrade r rows

instance (st : FillImport) (r : FillRow) : Decidable (Safe st r) :=
  inferInstanceAs (Decidable (_ ∧ _))

/-- The sequence of the row's table gives out an id that is not in it. -/
def FreshId (st : FillImport) (r : FillRow) : Prop :=
  ∀ rows ∈ st.pending.raw r.table, ∀ s ∈ rows.rows, s.id ≠ r.seqId.1

instance (st : FillImport) (r : FillRow) : Decidable (FreshId st r) :=
  inferInstanceAs (Decidable (∀ rows ∈ st.pending.raw r.table, _))

/-- The state after a row. -/
def fillRowStep (st : FillImport) (r : FillRow) : FillImport :=
  match writeFillRow st r with
  | .ok st => st
  | .error st => st

/-! ## One row -/

/-- What a statement on a row does to the raw tables and the statistics. -/
structure Wrote (st : FillImport) (r : FillRow) (st' : FillImport) : Prop where
  tables : ∀ t, (st'.pending.raw t).isSome = (st.pending.raw t).isSome
  kept : ∀ t, ∀ rows ∈ st.pending.raw t, ∀ rows' ∈ st'.pending.raw t, ∀ s ∈ rows.rows,
    s ∈ rows'.rows ∨ t = .flex ∧ r.table = .flex ∧ s.execId = r.storedExecId ∧
      r.rowOver s ∈ rows'.rows
  stored : ∀ rows' ∈ st'.pending.raw r.table, r.storedExecId.isSome ∧
    ∃ s ∈ rows'.rows, s.execId = r.storedExecId ∧ (r.table = .flex → r.rowOver s = s)
  ids : ∀ id ∈ st'.stats.ids, id ∈ st.stats.ids ∨
    ∃ rows' ∈ st'.pending.raw .tws, ∃ s ∈ rows'.rows, s.id = id

variable {st st' : FillImport} {r : FillRow} {rows rows' : Sql.Store (RawRow.clash r.table)}

theorem textOrEmpty_storedExecId (h : r.storedExecId.isSome) : textOrEmpty r.storedExecId ≠ "" := by
  unfold ImportRow.storedExecId at h ⊢
  split_ifs at h ⊢ with hown hmade
  · intro hempty
    rw [hempty] at hown
    exact hown rfl
  · intro hempty
    have hlength := congrArg String.length hempty
    simp [textOrEmpty, String.length_append] at hlength
  · cases h

@[simp] theorem execId_row (r : ImportRow) : r.row.execId = r.storedExecId := by
  simp only [ImportRow.row]

theorem rowOver_row (r : ImportRow) : r.rowOver r.row = r.row := by
  simp only [ImportRow.rowOver, ImportRow.row]

theorem rowOver_rowOver (r : ImportRow) (s : RawRow) : r.rowOver (r.rowOver s) = r.rowOver s := by
  simp only [ImportRow.rowOver]

theorem execId_of_rowOver {r : ImportRow} {s : RawRow} (h : r.rowOver s = s) :
    s.execId = r.storedExecId := by
  have hexec := execId_rowOver r s
  rwa [h] at hexec

theorem accountId_of_rowOver {r : ImportRow} {s : RawRow} (h : r.rowOver s = s) :
    s.accountId = r.accountId := (congrArg RawRow.accountId h).symm

theorem tradeId_of_rowOver {r : ImportRow} {s : RawRow} (h : r.rowOver s = s) :
    s.tradeId = r.tradeId := (congrArg RawRow.tradeId h).symm

/-- Two rows under the execution id of an import row are one. -/
theorem clash_of_storedExecId {s s' : RawRow} {t : RawTable} (hsome : r.storedExecId.isSome)
    (hs : s.execId = r.storedExecId) (hs' : s'.execId = r.storedExecId) : RawRow.clash t s s' := by
  refine .inr (.inl ⟨?_, hs.trans hs'.symm⟩)
  rw [hs]
  exact textOrEmpty_storedExecId hsome

theorem raw_withTable (db : FillDb) (t : RawTable) (rows : Sql.Store (RawRow.clash t)) :
    (db.withTable t rows).raw t = some rows := Function.update_self ..

theorem raw_withTable_of_ne {t t' : RawTable} (h : t' ≠ t) (db : FillDb)
    (rows : Sql.Store (RawRow.clash t)) : (db.withTable t rows).raw t' = db.raw t' :=
  Function.update_of_ne h ..

theorem isSome_withTable {t : RawTable} {db : FillDb} {rows : Sql.Store (RawRow.clash t)}
    (h : (db.raw t).isSome) (t' : RawTable) :
    ((db.withTable t rows).raw t').isSome = (db.raw t').isSome := by
  by_cases ht : t' = t
  · subst ht
    rw [raw_withTable, h]
    rfl
  · rw [raw_withTable_of_ne ht]

theorem withTable_self {t : RawTable} {db : FillDb} {rows : Sql.Store (RawRow.clash t)}
    (h : db.raw t = some rows) : db.withTable t rows = db := by
  rw [FillDb.withTable, ← h, Function.update_eq_self]

theorem exists_row_of_table_eq {db : FillDb} {t t' : RawTable} (h : t = t') {p : RawRow → Prop}
    (hrow : ∃ rows ∈ db.raw t, ∃ s ∈ rows.rows, p s) :
    ∃ rows ∈ db.raw t', ∃ s ∈ rows.rows, p s := by
  subst h
  exact hrow

theorem raw_writeCommission (db : FillDb) (r : FillRow) : (writeCommission db r).raw = db.raw := by
  unfold writeCommission
  split
  · rfl
  · dsimp only
    split_ifs <;> rfl

/-- What a statement has to do to the rows of its table. -/
theorem wrote_withTable {stats : FillStats} (hrows : st.pending.raw r.table = some rows)
    (hsome : r.storedExecId.isSome)
    (hkept : ∀ s ∈ rows.rows, s ∈ rows'.rows ∨ r.table = .flex ∧ s.execId = r.storedExecId ∧
      r.rowOver s ∈ rows'.rows)
    (hstored : ∃ s ∈ rows'.rows, s.execId = r.storedExecId ∧ (r.table = .flex → r.rowOver s = s))
    (hids : ∀ id ∈ stats.ids, id ∈ st.stats.ids ∨
      r.table = .tws ∧ ∃ s ∈ rows'.rows, s.id = id) :
    Wrote st r ⟨st.committed, st.pending.withTable r.table rows', stats⟩ := by
  have hthere : (st.pending.raw r.table).isSome := by
    rw [hrows]
    rfl
  refine ⟨isSome_withTable hthere, ?_, ?_, ?_⟩
  · intro t old hold new hnew s hs
    by_cases ht : t = r.table
    · subst ht
      rw [raw_withTable] at hnew
      obtain rfl := Option.some.inj hnew
      obtain rfl := Option.some.inj (hrows.symm.trans hold)
      exact (hkept s hs).imp_right fun ⟨hflex, h⟩ => ⟨hflex, hflex, h⟩
    · rw [raw_withTable_of_ne ht] at hnew
      obtain rfl := Option.some.inj ((Option.mem_def.1 hold).symm.trans hnew)
      exact .inl hs
  · intro new hnew
    rw [raw_withTable] at hnew
    obtain rfl := Option.some.inj hnew
    exact ⟨hsome, hstored⟩
  · intro id hid
    refine (hids id hid).imp_right fun ⟨ht, s, hs, hsid⟩ => ?_
    exact exists_row_of_table_eq ht ⟨rows', raw_withTable .., s, hs, hsid⟩

theorem mem_ids_addInserted {stats : FillStats} {t : RawTable} {id id' : ℤ}
    (h : id' ∈ (stats.addInserted t id).ids) : id' ∈ stats.ids ∨ t = .tws ∧ id' = id := by
  unfold FillStats.addInserted FillStats.ids at h
  split_ifs at h with ht
  · simp only [List.mem_append, List.mem_singleton] at h
    simp only [FillStats.ids, List.mem_append]
    tauto
  · exact .inl h

theorem mem_ids_addSkipped {stats : FillStats} {t : RawTable} {id id' : ℤ}
    (h : id' ∈ (stats.addSkipped t id).ids) : id' ∈ stats.ids ∨ t = .tws ∧ id' = id := by
  unfold FillStats.addSkipped FillStats.ids at h
  split_ifs at h with ht
  · simp only [List.mem_append, List.mem_singleton] at h
    simp only [FillStats.ids, List.mem_append]
    tauto
  · exact .inl h

/-- A row that goes in. -/
theorem wrote_insertFill (hrows : st.pending.raw r.table = some rows)
    (hsome : r.storedExecId.isSome) (h : insertFill st r rows = some st') :
    Wrote st r st' ∧ st'.committed = st.committed := by
  obtain ⟨rows', hinsert, rfl⟩ := Option.map_eq_some_iff.1 h
  have hmem : ∀ s, s ∈ rows'.rows ↔ s ∈ rows.rows ∨ s = r.row := by
    intro s
    rw [(Sql.Store.rows_of_insert? hinsert).1, List.mem_append, List.mem_singleton]
  refine ⟨wrote_withTable hrows hsome (fun s hs => .inl ((hmem s).2 (.inl hs)))
    ⟨r.row, (hmem _).2 (.inr rfl), execId_row _, fun _ => rowOver_row _⟩ fun id hid => ?_, rfl⟩
  exact (mem_ids_addInserted hid).imp_right fun ⟨ht, h⟩ =>
    ⟨ht, r.row, (hmem _).2 (.inr rfl), h.symm⟩

/-- The Flex table after the statement for a row. -/
theorem mem_of_upsertFlex {s : RawRow}
    (h : rows.upsert? (fun s => s.execId = r.storedExecId) r.row r.rowOver = some rows') :
    s ∈ rows'.rows ↔ s ∈ rows.rows ∧ s.execId ≠ r.storedExecId ∨
      (∃ old ∈ rows.rows, old.execId = r.storedExecId ∧ s = r.rowOver old) ∨
      (∀ old ∈ rows.rows, old.execId ≠ r.storedExecId) ∧ s = r.row := by
  rw [Sql.Store.mem_of_upsert? h]
  simp only [decide_eq_true_eq, decide_eq_false_iff_not, ne_eq]

/-- After the statement the columns of the row are stored. -/
theorem exists_of_upsertFlex
    (h : rows.upsert? (fun s => s.execId = r.storedExecId) r.row r.rowOver = some rows') :
    ∃ u ∈ rows'.rows, r.rowOver u = u := by
  by_cases hany : ∃ s ∈ rows.rows, s.execId = r.storedExecId
  · obtain ⟨s, hs, hexec⟩ := hany
    have hmem : r.rowOver s ∈ rows'.rows := by
      rw [mem_of_upsertFlex h]
      exact .inr (.inl ⟨s, hs, hexec, rfl⟩)
    exact ⟨r.rowOver s, hmem, rowOver_rowOver ..⟩
  · have hmem : r.row ∈ rows'.rows := by
      rw [mem_of_upsertFlex h]
      exact .inr (.inr ⟨fun s hs hexec => hany ⟨s, hs, hexec⟩, rfl⟩)
    exact ⟨r.row, hmem, rowOver_row _⟩

/-- A Flex row that goes in or replaces the row of its execution id. -/
theorem wrote_upsert (hrows : st.pending.raw r.table = some rows)
    (hsome : r.storedExecId.isSome) (hflex : r.table = .flex)
    (h : rows.upsert? (fun s => s.execId = r.storedExecId) r.row r.rowOver = some rows') :
    Wrote st r ⟨st.committed, st.pending.withTable r.table rows', st.stats⟩ := by
  refine wrote_withTable hrows hsome (fun s hs => ?_) ?_ fun id hid => .inl hid
  · by_cases hexec : s.execId = r.storedExecId
    · have hmem : r.rowOver s ∈ rows'.rows := by
        rw [mem_of_upsertFlex h]
        exact .inr (.inl ⟨s, hs, hexec, rfl⟩)
      exact .inr ⟨hflex, hexec, hmem⟩
    · exact .inl ((mem_of_upsertFlex h).2 (.inl ⟨hs, hexec⟩))
  · obtain ⟨u, hu, hover⟩ := exists_of_upsertFlex h
    exact ⟨u, hu, execId_of_rowOver hover, fun _ => hover⟩

/-- A row whose execution id is there. -/
theorem wrote_skip {s : RawRow} (hrows : st.pending.raw r.table = some rows)
    (hsome : r.storedExecId.isSome) (hflex : r.table ≠ .flex) (hs : s ∈ rows.rows)
    (hexec : s.execId = r.storedExecId) :
    Wrote st r ⟨st.committed, st.pending, st.stats.addSkipped r.table s.id⟩ := by
  have hwrote : Wrote st r ⟨st.committed, st.pending.withTable r.table rows,
      st.stats.addSkipped r.table s.id⟩ :=
    wrote_withTable hrows hsome (fun s hs => .inl hs) ⟨s, hs, hexec, fun h => absurd h hflex⟩
      fun id hid => (mem_ids_addSkipped hid).imp_right fun ⟨ht, h⟩ => ⟨ht, s, hs, h.symm⟩
  rwa [withTable_self hrows] at hwrote

/-- A row whose table is missing, in a call that has changed no table. -/
theorem wrote_missing (hmissing : st.pending.raw r.table = none)
    (hsame : ∀ t, (st.pending.raw t).map Sql.Store.rows = (st.committed.raw t).map Sql.Store.rows) :
    Wrote st r ⟨st.committed, st.committed, { st.stats with missingTable := true }⟩ := by
  have hraw : ∀ t, st.committed.raw t = st.pending.raw t := fun t =>
    Option.map_injective Sql.Store.rows_injective (hsame t).symm
  refine ⟨fun t => by rw [hraw t], fun t rows hrows rows' hrows' s hs => ?_, fun rows' hrows' => ?_,
    fun id hid => .inl hid⟩
  · have hnew : st.pending.raw t = some rows' := (hraw t).symm.trans hrows'
    obtain rfl := Option.some.inj ((Option.mem_def.1 hrows).symm.trans hnew)
    exact .inl hs
  · have hnew : st.pending.raw r.table = some rows' := (hraw r.table).symm.trans hrows'
    rw [hmissing] at hnew
    cases hnew

/-- A Flex row whose trade is under no other execution id is written. -/
theorem exists_upsertFlex (hsome : r.storedExecId.isSome) (hflex : r.table = .flex)
    (hfresh : ∀ s ∈ rows.rows, s.id ≠ r.seqId.1) (hown : OwnTrade r rows) :
    ∃ rows', rows.upsert? (fun s => s.execId = r.storedExecId) r.row r.rowOver = some rows' := by
  have hother : ∀ s ∈ rows.rows, s.execId ≠ r.storedExecId →
      ¬ (s.accountId.isSome ∧ textOrEmpty s.tradeId ≠ "" ∧ s.accountId = r.accountId ∧
        s.tradeId = r.tradeId) := by
    rintro s hs hexec ⟨hacc, htrade, ha, ht⟩
    exact hexec (hown hflex s hs ⟨ha ▸ hacc, ht ▸ htrade, ha, ht⟩)
  refine Sql.Store.exists_upsert? (RawRow.clash_symm r.table) (fun s s' hs hs' => ?_)
    (fun s hs hexec => ?_) fun old hold hexec s hs hs' => ?_
  · exact clash_of_storedExecId hsome (of_decide_eq_true hs) (of_decide_eq_true hs')
  · have hexec : s.execId ≠ r.storedExecId := of_decide_eq_false hexec
    rintro (hid | ⟨-, h⟩ | ⟨-, h⟩)
    · exact hfresh s hs hid
    · exact hexec (h.trans (execId_row _))
    · exact hother s hs hexec h
  · have hexec : old.execId = r.storedExecId := of_decide_eq_true hexec
    have hs' : s.execId ≠ r.storedExecId := of_decide_eq_false hs'
    rintro (hid | ⟨-, h⟩ | ⟨-, hacc, htrade, ha, ht⟩)
    · -- one primary key: the row that was merged is the other
      obtain rfl := rows.eq_of_clash (RawRow.clash_symm r.table) hold hs (.inl hid)
      exact hs' hexec
    · exact hs' (h.symm.trans (execId_rowOver ..))
    · exact hother s hs hs' ⟨ha ▸ hacc, ht ▸ htrade, ha.symm, ht.symm⟩

/-- One row for an account and a trade: what is written has no other execution id beside it. -/
theorem ownTrade_of_upsertFlex (hflex : r.table = .flex) {rows' : Sql.Store (RawRow.clash r.table)}
    (h : rows.upsert? (fun s => s.execId = r.storedExecId) r.row r.rowOver = some rows') :
    OwnTrade r rows := by
  obtain ⟨u, hu, hover⟩ := exists_of_upsertFlex h
  intro _ s hs ⟨hacc, htrade, ha, ht⟩
  by_contra hexec
  have hs' : s ∈ rows'.rows := (mem_of_upsertFlex h).2 (.inl ⟨hs, hexec⟩)
  have heq := rows'.eq_of_clash (RawRow.clash_symm r.table) hs' hu
    (.inr (.inr ⟨hflex, ha ▸ hacc, ht ▸ htrade, ha.trans (accountId_of_rowOver hover).symm,
      ht.trans (tradeId_of_rowOver hover).symm⟩))
  exact hexec (heq ▸ execId_of_rowOver hover)

/-- The statement for a Flex row fails exactly when its trade is under another execution id. -/
theorem upsertFlex_eq_none_iff (hsome : r.storedExecId.isSome) (hflex : r.table = .flex)
    (hfresh : ∀ s ∈ rows.rows, s.id ≠ r.seqId.1) :
    rows.upsert? (fun s => s.execId = r.storedExecId) r.row r.rowOver = none ↔
      ¬ OwnTrade r rows := by
  constructor
  · intro hnone hown
    obtain ⟨rows', hsucceeds⟩ := exists_upsertFlex hsome hflex hfresh hown
    rw [hnone] at hsucceeds
    cases hsucceeds
  · intro hown
    by_contra hne
    obtain ⟨rows', h⟩ := Option.ne_none_iff_exists'.1 hne
    exact hown (ownTrade_of_upsertFlex hflex h)

/-- A safe row is written. -/
theorem exists_writeRaw (hsafe : Safe st r) (hfresh : FreshId st r) :
    ∃ st', writeRaw st r = some st' ∧ Wrote st r st' ∧ st'.committed = st.committed := by
  cases hrows : st.pending.raw r.table with
  | none =>
    refine ⟨_, ?_, wrote_missing hrows (hsafe.1 (by rw [hrows]; rfl)), rfl⟩
    simp only [writeRaw, hrows]
  | some rows =>
    obtain ⟨hsome, hown⟩ := hsafe.2 rows hrows
    have hne : r.storedExecId ≠ none := by
      rw [← Option.isSome_iff_ne_none]
      exact hsome
    by_cases hflex : r.table = .flex
    · obtain ⟨rows', h⟩ := exists_upsertFlex hsome hflex (hfresh rows hrows) hown
      refine ⟨_, ?_, wrote_upsert hrows hsome hflex h, rfl⟩
      simp only [writeRaw, hrows, if_neg hne, if_pos hflex, h, Option.map_some]
    · cases hfind : rows.rows.find? fun s => s.execId = r.storedExecId with
      | some s =>
        have hs := List.mem_of_find?_eq_some hfind
        have hexec : s.execId = r.storedExecId := by simpa using List.find?_some hfind
        refine ⟨_, ?_, wrote_skip hrows hsome hflex hs hexec, rfl⟩
        simp only [writeRaw, hrows, if_neg hne, if_neg hflex, hfind]
      | none =>
        have hfree : ∀ s ∈ rows.rows, ¬ RawRow.clash r.table s r.row := by
          rintro s hs (hid | ⟨-, h⟩ | ⟨h, -⟩)
          · exact hfresh rows hrows s hs hid
          · exact List.find?_eq_none.1 hfind s hs (decide_eq_true (h.trans (execId_row _)))
          · exact hflex h
        have hinsert : ∃ st', insertFill st r rows = some st' := by
          rw [insertFill, Sql.Store.insert?, dif_pos hfree]
          exact ⟨_, rfl⟩
        obtain ⟨st', hinsert⟩ := hinsert
        refine ⟨st', ?_, wrote_insertFill hrows hsome hinsert⟩
        simp only [writeRaw, hrows, if_neg hne, if_neg hflex, hfind, hinsert]

theorem exists_writeFillRow (hsafe : Safe st r) (hfresh : FreshId st r) :
    ∃ st', writeFillRow st r = .ok st' ∧ Wrote st r st' := by
  obtain ⟨st', h, ⟨htables, hkept, hstored, hids⟩, -⟩ := exists_writeRaw hsafe hfresh
  refine ⟨{ st' with pending := writeCommission st'.pending r }, ?_, ?_⟩
  · rw [writeFillRow, h]
  · have hraw := raw_writeCommission st'.pending r
    constructor
    · simpa only [hraw] using htables
    · simpa only [hraw] using hkept
    · simpa only [hraw] using hstored
    · simpa only [hraw] using hids

/-! ## A batch -/

theorem Persisted.wrote {history : List FillRow} (h : Persisted history st.pending)
    (hw : Wrote st r st') : Persisted (history ++ [r]) st'.pending := by
  have hbefore : ∀ t, ∀ rows' ∈ st'.pending.raw t, ∃ rows, st.pending.raw t = some rows := by
    intro t rows' hrows'
    rw [← Option.isSome_iff_exists, ← hw.tables t, Option.mem_def.1 hrows']
    rfl
  constructor
  · intro x hx rows' hrows'
    have hrow : x.storedExecId.isSome ∧ ∃ s ∈ rows'.rows, s.execId = x.storedExecId := by
      rcases List.mem_append.1 hx with hx | hx
      · obtain ⟨rows, hrows⟩ := hbefore _ rows' hrows'
        obtain ⟨hsome, s, hs, hexec, -⟩ := h.once x hx rows hrows
        rcases hw.kept _ rows hrows rows' hrows' s hs with hs' | ⟨-, -, hover, hs'⟩
        · exact ⟨hsome, s, hs', hexec⟩
        · exact ⟨hsome, r.rowOver s, hs', (execId_rowOver ..).trans (hover.symm.trans hexec)⟩
      · obtain rfl := List.mem_singleton.1 hx
        obtain ⟨hsome, s, hs, hexec, -⟩ := hw.stored rows' hrows'
        exact ⟨hsome, s, hs, hexec⟩
    obtain ⟨hsome, s, hs, hexec⟩ := hrow
    exact ⟨hsome, s, hs, hexec, fun s' hs' hexec' =>
      rows'.eq_of_clash (RawRow.clash_symm _) hs' hs (clash_of_storedExecId hsome hexec' hexec)⟩
  · intro pre x post hsplit hflex hlast rows' hrows'
    rcases List.eq_nil_or_concat post with rfl | ⟨post, e, rfl⟩
    · obtain ⟨-, he⟩ := List.append_inj' hsplit rfl
      obtain rfl : r = x := by simpa using he
      obtain ⟨-, s, hs, -, hover⟩ := hw.stored rows' hrows'
      exact ⟨s, hs, hover hflex⟩
    · have hsplit' : history ++ [r] = (pre ++ x :: post) ++ [e] := by simpa using hsplit
      obtain ⟨hhist, he⟩ := List.append_inj' hsplit' rfl
      obtain rfl : r = e := by simpa using he
      obtain ⟨rows, hrows⟩ := hbefore _ rows' hrows'
      obtain ⟨s, hs, hover⟩ := h.last pre x post hhist hflex
        (fun later hlater => hlast later (by simp [hlater])) rows hrows
      rcases hw.kept _ rows hrows rows' hrows' s hs with hs' | ⟨-, hrflex, hexec, -⟩
      · exact ⟨s, hs', hover⟩
      · exact absurd (hexec.symm.trans (execId_of_rowOver hover)) (hlast r (by simp) hrflex)

theorem StatsPersisted.wrote (h : StatsPersisted st.stats st.pending) (hw : Wrote st r st') :
    StatsPersisted st'.stats st'.pending := by
  intro id hid
  rcases hw.ids id hid with hid | hnew
  · obtain ⟨rows, hrows, s, hs, hsid⟩ := h id hid
    obtain ⟨rows', hrows'⟩ := Option.isSome_iff_exists.1
      ((hw.tables .tws).trans (Option.isSome_iff_exists.2 ⟨rows, hrows⟩))
    rcases hw.kept _ rows hrows rows' hrows' s hs with hs' | ⟨htws, -⟩
    · exact ⟨rows', hrows', s, hs', hsid⟩
    · cases htws
  · exact hnew

/-- Every row of a call is safe when it comes. -/
def SafeBatch (db : FillDb) (rows : List FillRow) : Prop :=
  Runs.Along fillRowStep (.begin db) (fun _ st r => Safe st r) rows

/-- Every row of a call is given a new id. -/
def FreshBatch (db : FillDb) (rows : List FillRow) : Prop :=
  Runs.Along fillRowStep (.begin db) (fun _ st r => FreshId st r) rows

instance (db : FillDb) (rows : List FillRow) : Decidable (SafeBatch db rows) :=
  inferInstanceAs (Decidable (Runs.Along ..))

instance (db : FillDb) (rows : List FillRow) : Decidable (FreshBatch db rows) :=
  inferInstanceAs (Decidable (Runs.Along ..))

/-- A call of safe rows succeeds. -/
theorem run_of_safe {db : FillDb} {before rows : List FillRow} (h : Persisted before db)
    (hsafe : SafeBatch db rows) (hfresh : FreshBatch db rows) :
    rows.foldlM writeFillRow (.begin db) = .ok (Runs.run fillRowStep (.begin db) rows) ∧
      Persisted (before ++ rows) (Runs.run fillRowStep (.begin db) rows).pending ∧
      StatsPersisted (Runs.run fillRowStep (.begin db) rows).stats
        (Runs.run fillRowStep (.begin db) rows).pending ∧
      ∀ t, ((Runs.run fillRowStep (.begin db) rows).pending.raw t).isSome = (db.raw t).isSome := by
  induction rows using List.reverseRecOn with
  | nil =>
    refine ⟨rfl, ?_, fun id hid => ?_, fun t => rfl⟩
    · rw [List.append_nil]
      exact h
    · simp [FillImport.begin, FillStats.empty, FillStats.ids] at hid
  | append_singleton rows r ih =>
    obtain ⟨hsafe, hsafer⟩ := (Runs.along_snoc rows r).1 hsafe
    obtain ⟨hfresh, hfreshr⟩ := (Runs.along_snoc rows r).1 hfresh
    obtain ⟨hfold, hpersisted, hstats, htables⟩ := ih hsafe hfresh
    obtain ⟨st', hrow, hw⟩ := exists_writeFillRow hsafer hfreshr
    have hrun : Runs.run fillRowStep (.begin db) (rows ++ [r]) = st' := by
      rw [Runs.run_snoc, fillRowStep, hrow]
    rw [hrun, List.foldlM_append, hfold, ← List.append_assoc]
    refine ⟨?_, hpersisted.wrote hw, hstats.wrote hw, fun t => (hw.tables t).trans (htables t)⟩
    show [r].foldlM writeFillRow (Runs.run fillRowStep (.begin db) rows) = _
    rw [List.foldlM_cons, hrow]
    rfl

theorem writeFills_of_safe {db : FillDb} {before rows : List FillRow} (h : Persisted before db)
    (hsafe : SafeBatch db rows) (hfresh : FreshBatch db rows) :
    (writeFills db rows).returned = true ∧ Persisted (before ++ rows) (writeFills db rows).db ∧
      StatsPersisted (writeFills db rows).stats (writeFills db rows).db ∧
      ∀ t, ((writeFills db rows).db.raw t).isSome = (db.raw t).isSome := by
  obtain ⟨hfold, hrest⟩ := run_of_safe h hsafe hfresh
  unfold writeFills
  rw [hfold]
  exact ⟨rfl, hrest⟩

/-! ## A call that fails -/

theorem committed_of_writeRaw (h : writeRaw st r = some st') : st'.committed = st.committed := by
  have hinsert : ∀ rows, insertFill st r rows = some st' → st'.committed = st.committed := by
    intro rows h
    obtain ⟨rows', -, rfl⟩ := Option.map_eq_some_iff.1 h
    rfl
  unfold writeRaw at h
  split at h
  · obtain rfl := Option.some.inj h
    rfl
  · split_ifs at h
    · exact hinsert _ h
    · obtain ⟨rows', -, rfl⟩ := Option.map_eq_some_iff.1 h
      rfl
    · split at h
      · obtain rfl := Option.some.inj h
        rfl
      · exact hinsert _ h

/-- Whether a loop ends or fails, nothing is committed in it. -/
theorem committed_of_foldlM (rows : List FillRow) (st : FillImport) :
    (∀ st', rows.foldlM writeFillRow st = .ok st' → st'.committed = st.committed) ∧
      ∀ st', rows.foldlM writeFillRow st = .error st' → st'.committed = st.committed := by
  induction rows generalizing st with
  | nil =>
    refine ⟨fun st' h => ?_, fun st' h => ?_⟩
    · obtain rfl : st = st' := Except.ok.inj h
      rfl
    · cases h
  | cons r rows ih =>
    rw [List.foldlM_cons, writeFillRow]
    cases hraw : writeRaw st r with
    | none =>
      refine ⟨fun st' h => ?_, fun st' h => ?_⟩
      · cases h
      · obtain rfl : st = st' := Except.error.inj h
        rfl
    | some mid =>
      have hmid := committed_of_writeRaw hraw
      exact ⟨fun st' h => ((ih _).1 st' h).trans hmid, fun st' h => ((ih _).2 st' h).trans hmid⟩

/-- A call that returns false changes nothing. -/
theorem db_of_not_returned {db : FillDb} {rows : List FillRow}
    (h : (writeFills db rows).returned = false) : (writeFills db rows).db = db := by
  unfold writeFills at h ⊢
  cases hfold : rows.foldlM writeFillRow (.begin db) with
  | ok st =>
    rw [hfold] at h
    cases h
  | error st => exact (committed_of_foldlM rows (.begin db)).2 st hfold

/-! ## Runs of imports -/

theorem importsSucceed_of_safeBatch {start : FillDb} {batches : List (List FillRow)}
    (hsafe : Runs.Along fillStep start (fun _ db rows => SafeBatch db rows) batches)
    (hfresh : Runs.Along fillStep start (fun _ db rows => FreshBatch db rows) batches) :
    ImportsSucceed start batches := by
  induction batches using List.reverseRecOn with
  | nil =>
    refine ⟨Runs.along_nil, fun t => rfl, ⟨fun r hr => ?_, fun pre r post h => ?_⟩⟩
    · cases hr
    · simp at h
  | append_singleton batches rows ih =>
    obtain ⟨hsafe, hsafeRows⟩ := (Runs.along_snoc batches rows).1 hsafe
    obtain ⟨hfresh, hfreshRows⟩ := (Runs.along_snoc batches rows).1 hfresh
    obtain ⟨hcalls, htables, hpersisted⟩ := ih hsafe hfresh
    obtain ⟨hreturned, hkept, hstats, hsame⟩ :=
      writeFills_of_safe hpersisted hsafeRows hfreshRows
    have hrun : Runs.run fillStep start (batches ++ [rows]) =
        (writeFills (Runs.run fillStep start batches) rows).db := Runs.run_snoc rows
    refine ⟨(Runs.along_snoc batches rows).2 ⟨hcalls, hreturned, hstats⟩, fun t => ?_, ?_⟩
    · rw [hrun]
      exact (hsame t).trans (htables t)
    · rw [hrun, List.flatten_append]
      simpa using hkept

/-- A call that returns false changes nothing; and imports of safe rows all succeed and keep every
row once, after each of them. -/
theorem importsSucceed_of_safe {start : FillDb} {batches : List (List FillRow)}
    (hsafe : Runs.Along fillStep start (fun _ db rows => SafeBatch db rows) batches)
    (hfresh : Runs.Along fillStep start (fun _ db rows => FreshBatch db rows) batches) :
    (∀ db rows, (writeFills db rows).returned = false → (writeFills db rows).db = db) ∧
      ∀ pre, pre <+: batches → ImportsSucceed start pre := by
  refine ⟨fun db rows => db_of_not_returned, ?_⟩
  rintro pre ⟨post, rfl⟩
  exact importsSucceed_of_safeBatch hsafe.of_append hfresh.of_append

/-! ## Where no table is missing -/

/-- The raw tables of a database that has them all. -/
def allTables (db : ExecutionDb) : (t : RawTable) → Option (Sql.Store (RawRow.clash t)) :=
  fun t => some (db.raw t)

theorem allTables_withRaw (db : ExecutionDb) (t : RawTable) (rows : Sql.Store (RawRow.clash t)) :
    allTables (withRaw db t rows) = Function.update (allTables db) t (some rows) := by
  funext t'
  by_cases h : t' = t
  · subst h
    rw [Function.update_self, allTables, withRaw]
    simp
  · rw [Function.update_of_ne h, allTables, withRaw]
    simp [h, allTables]

/-- On tables that are there a row does what `writeImportRow` does. -/
theorem writeRaw_eq {db : ExecutionDb} (hall : st.pending.raw = allTables db) :
    (writeRaw st r).map (fun st => st.pending.raw) =
      (writeImportRow db r.toImportRow).map allTables := by
  have hrows : st.pending.raw r.table = some (db.raw r.table) := by
    rw [hall]
    rfl
  have hinsert : (insertFill st r (db.raw r.table)).map (fun st => st.pending.raw) =
      (insertRaw db r.table r.row).map allTables := by
    simp only [insertFill, insertRaw, Option.map_map, Function.comp_def, FillDb.withTable, hall,
      allTables_withRaw]
  by_cases hnone : r.storedExecId = none
  · have hfree : r.stored db = false := by
      simp [ImportRow.stored, hnone]
    simp only [writeRaw, hrows, if_pos hnone, writeImportRow, hfree, Bool.false_eq_true, if_false,
      hinsert]
  · have hsome : r.storedExecId.isSome := Option.isSome_iff_ne_none.2 hnone
    have hstored : r.stored db =
        (db.raw r.table).rows.any fun s => s.execId = r.storedExecId := by
      rw [Bool.eq_iff_iff]
      simp [ImportRow.stored, hsome]
    by_cases hflex : r.table = .flex
    · cases hany : (db.raw r.table).rows.any fun s => s.execId = r.storedExecId with
      | true =>
        simp only [writeRaw, hrows, if_neg hnone, if_pos hflex, writeImportRow, hstored, hany,
          if_true, Sql.Store.upsert?, Option.map_map, Function.comp_def, FillDb.withTable, hall,
          allTables_withRaw]
      | false =>
        simp only [writeRaw, hrows, if_neg hnone, if_pos hflex, writeImportRow, hstored, hany,
          Bool.false_eq_true, if_false, Sql.Store.upsert?, insertRaw, Option.map_map,
          Function.comp_def, FillDb.withTable, hall, allTables_withRaw]
    · cases hfind : (db.raw r.table).rows.find? fun s => s.execId = r.storedExecId with
      | some s =>
        have hany : ((db.raw r.table).rows.any fun s => s.execId = r.storedExecId) = true := by
          have hexec : s.execId = r.storedExecId := by simpa using List.find?_some hfind
          exact List.any_eq_true.2
            ⟨s, List.mem_of_find?_eq_some hfind, decide_eq_true hexec⟩
        simp only [writeRaw, hrows, if_neg hnone, if_neg hflex, hfind, writeImportRow, hstored,
          hany, if_true, Option.map_some, hall]
      | none =>
        have hany : ((db.raw r.table).rows.any fun s => s.execId = r.storedExecId) = false := by
          rw [Bool.eq_false_iff, Ne, List.any_eq_true]
          rintro ⟨s, hs, hexec⟩
          exact List.find?_eq_none.1 hfind s hs hexec
        simp only [writeRaw, hrows, if_neg hnone, if_neg hflex, hfind, writeImportRow, hstored,
          hany, Bool.false_eq_true, if_false, hinsert]

theorem foldlM_writeFillRow_eq (rows : List FillRow) {db : ExecutionDb}
    (hall : st.pending.raw = allTables db) :
    (rows.foldlM writeFillRow st).toOption.map (fun st => st.pending.raw) =
      (writeAccountExecutionsToDb db (rows.map FillRow.toImportRow)).map allTables := by
  unfold writeAccountExecutionsToDb
  induction rows generalizing st db with
  | nil => exact congrArg some hall
  | cons r rows ih =>
    have hstep := writeRaw_eq (r := r) hall
    rw [List.foldlM_cons, List.map_cons, List.foldlM_cons, writeFillRow]
    cases hraw : writeRaw st r with
    | none =>
      rw [hraw] at hstep
      have hnone : writeImportRow db r.toImportRow = none := by simpa using hstep.symm
      rw [hnone]
      rfl
    | some st' =>
      rw [hraw] at hstep
      obtain ⟨db', hdb', hall'⟩ := Option.map_eq_some_iff.1 hstep.symm
      rw [hdb']
      have hall' : (writeCommission st'.pending r).raw = allTables db' :=
        (raw_writeCommission ..).trans hall'.symm
      exact ih hall'

/-- Where no table is missing a call succeeds exactly when `writeAccountExecutionsToDb` does, with
the same raw tables. -/
theorem writeFills_eq (db : ExecutionDb) (commissions : Sql.Table CommissionRow.execId)
    (rows : List FillRow) :
    (if (writeFills ⟨allTables db, commissions⟩ rows).returned then
      some (writeFills ⟨allTables db, commissions⟩ rows).db.raw else none) =
      (writeAccountExecutionsToDb db (rows.map FillRow.toImportRow)).map allTables := by
  have h := @foldlM_writeFillRow_eq (.begin ⟨allTables db, commissions⟩) rows db rfl
  rw [← h, writeFills]
  cases rows.foldlM writeFillRow (.begin ⟨allTables db, commissions⟩) with
  | ok st => rfl
  | error st => rfl

/-! ## Imports that fail -/

/-- A fill bought, of a source and under an execution and a trade id. -/
def boughtFill (seqId : SeqId) (source : String) (execId tradeId : Option String) : FillRow where
  seqId
  accountId := some "U1"
  execId
  side := some "BUY"
  quantity := some (.fin 2)
  source := some source
  tradeId
  commission := some (.fin 1)
  currency := some "USD"
  realizedPnl := none
  yield_ := none
  yieldRedemptionDate := none

/-- Empty TWS and Flex tables, and no journal table. -/
def noJournal : FillDb where
  raw
    | .journal => none
    | _ => some .empty
  commissions := .empty

/-- Ids that the sequences give out. -/
def firstSeqId : SeqId := ⟨Int.ofNat 1, by decide⟩

/-- The id after the first. -/
def secondSeqId : SeqId := ⟨2, by decide⟩

/-- A fill of each source, the one without a table first, and the same once more. -/
def threeSources : List (List FillRow) :=
  let fills (seqId : SeqId) :=
    [boughtFill seqId "journal_closed" (some "j1") none, boughtFill seqId "tws" (some "e1") none,
      boughtFill seqId "flex_trades" none (some "77")]
  [fills firstSeqId, fills secondSeqId]

theorem importsSucceed_threeSources : ImportsSucceed noJournal threeSources :=
  (importsSucceed_of_safe (by decide +kernel) (by decide +kernel)).2 threeSources
    (List.prefix_refl _)

/-- A Flex fill without an execution id, and the same once IB has given it one. -/
def renamedFill : List (List FillRow) :=
  [[boughtFill firstSeqId "flex_trades" none (some "77")],
    [boughtFill secondSeqId "flex_trades" (some "0001.01") (some "77")]]

/-- The second import of a Flex fill that has got its execution id fails. -/
theorem not_importsSucceed_renamedFill : ¬ ImportsSucceed noJournal renamedFill := by
  intro h
  have hfails : (writeFills (Runs.run fillStep noJournal (renamedFill.take 1))
      (renamedFill.getLast (by decide))).returned = false := by decide +kernel
  have hcall := (h.calls (renamedFill.take 1) (renamedFill.getLast (by decide)) [] rfl).1
  rw [hfails] at hcall
  cases hcall

/-- A call that returns true loses the rows before one whose table is missing. -/
example : (writeFills noJournal [boughtFill firstSeqId "tws" (some "e1") none,
      boughtFill firstSeqId "journal_closed" (some "j1") none]).returned = true ∧
    ((writeFills noJournal [boughtFill firstSeqId "tws" (some "e1") none,
      boughtFill firstSeqId "journal_closed" (some "j1") none]).db.raw .tws).map
        Sql.Store.rows = some [] := by
  decide +kernel

end Portfolio
