import BifrostTrade.Lib.Table
import BifrostTrade.Lib.Text
import Mathlib.Data.Fintype.Basic

/-!
# Execution tables

The raw executions (`executions_raw_tws`, `_flex`, `_journal`), the trades and their
`trade_execution` rows, with the constraints of the schema (`brokerage_ddl.py`, `trade_ddl.py`).
A fill is named by its account and execution id; `splitsAt` and `wholeAt` are its two kinds of
attribution, and each statement on `trade_execution` has one lemma that says what it does to them.
-/

namespace Persistence

open Py

/-! ## Rows -/

/-- The three raw tables of executions. -/
inductive RawTable where
  | tws
  | flex
  | journal
  deriving DecidableEq, Repr

instance : Fintype RawTable :=
  ⟨{.tws, .flex, .journal}, by intro t; cases t <;> decide⟩

/-- A row of a raw table.  `tradeId` is the broker's id of the trade, not this program's. -/
structure RawRow where
  id : ℤ
  accountId : Option String
  execId : Option String
  side : Option String
  quantity : Option Double
  source : Option String
  tradeId : Option String
  deriving DecidableEq

/-- The primary key, the index on execution ids, and for Flex the index on account and trade. -/
def RawRow.clash (t : RawTable) (r s : RawRow) : Prop :=
  r.id = s.id ∨ textOrEmpty r.execId ≠ "" ∧ r.execId = s.execId ∨
    t = .flex ∧ r.accountId.isSome ∧ textOrEmpty r.tradeId ≠ "" ∧ r.accountId = s.accountId ∧
      r.tradeId = s.tradeId

instance (t : RawTable) : DecidableRel (RawRow.clash t) :=
  fun _ _ => inferInstanceAs (Decidable (_ ∨ _ ∧ _ ∨ _))

theorem RawRow.clash_symm (t : RawTable) (r s : RawRow) (h : RawRow.clash t r s) :
    RawRow.clash t s r := by
  rcases h with h | ⟨hne, h⟩ | ⟨ht, hacc, hne, ha, h⟩
  · exact .inl h.symm
  · exact .inr (.inl ⟨h ▸ hne, h.symm⟩)
  · exact .inr (.inr ⟨ht, ha ▸ hacc, h ▸ hne, ha.symm, h.symm⟩)

/-- An account and an execution id. -/
abbrev FillKey := String × String

/-- The stripped account and execution id of a raw row. -/
def RawRow.fillKey (r : RawRow) : FillKey :=
  (strip (textOrEmpty r.accountId), strip (textOrEmpty r.execId))

/-- A row of the trades. -/
structure TradeRow where
  tradeId : ℤ
  accountId : String
  strategyOpportunityId : ℤ
  label : Option String
  deriving DecidableEq

/-- A row of `trade_execution`: the whole fill without a split quantity, else a share of it. -/
structure TradeExecutionRow where
  accountId : String
  execId : String
  tradeId : ℤ
  splitQuantity : Option ℚ
  deriving DecidableEq

/-- The fill that the row attributes. -/
def TradeExecutionRow.key (x : TradeExecutionRow) : FillKey := (x.accountId, x.execId)

/-- One row for a fill and a trade, and one row for a whole fill. -/
def TradeExecutionRow.clash (x y : TradeExecutionRow) : Prop :=
  x.key = y.key ∧ (x.tradeId = y.tradeId ∨ x.splitQuantity = none ∧ y.splitQuantity = none)

instance : DecidableRel TradeExecutionRow.clash :=
  fun _ _ => inferInstanceAs (Decidable (_ ∧ _))

theorem TradeExecutionRow.clash_symm (x y : TradeExecutionRow) (h : x.clash y) : y.clash x :=
  ⟨h.1.symm, h.2.imp Eq.symm And.symm⟩

/-! ## The tables together -/

/-- The foreign key and the check of `trade_execution`. -/
def TradeExecutionRow.Allowed (trades : Sql.Table TradeRow.tradeId) (x : TradeExecutionRow) :
    Prop :=
  (∃ t ∈ trades.rows, t.tradeId = x.tradeId ∧ t.accountId = x.accountId) ∧
    x.splitQuantity ≠ some 0

instance (trades : Sql.Table TradeRow.tradeId) :
    DecidablePred (TradeExecutionRow.Allowed trades) :=
  fun _ => inferInstanceAs (Decidable (_ ∧ _))

/-- The raw tables, the trades and the attribution, whose rows obey their constraints. -/
structure ExecutionDb where
  raw : (t : RawTable) → Sql.Store (RawRow.clash t)
  trades : Sql.Table TradeRow.tradeId
  tradeExecution : Sql.Store TradeExecutionRow.clash
  allowed : ∀ x ∈ tradeExecution.rows, x.Allowed trades

namespace ExecutionDb

/-- No rows at all. -/
def empty : ExecutionDb where
  raw _ := .empty
  trades := .empty
  tradeExecution := .empty
  allowed := by simp

variable (db : ExecutionDb)

/-- The split rows of a fill. -/
def splitsAt (k : FillKey) : List TradeExecutionRow :=
  db.tradeExecution.rows.filter fun x => x.key = k ∧ x.splitQuantity.isSome

/-- The whole-fill rows of a fill. -/
def wholeAt (k : FillKey) : List TradeExecutionRow :=
  db.tradeExecution.rows.filter fun x => x.key = k ∧ x.splitQuantity.isNone

variable {db} {k k' : FillKey} {x : TradeExecutionRow}

theorem mem_splitsAt :
    x ∈ db.splitsAt k ↔ x ∈ db.tradeExecution.rows ∧ x.key = k ∧ x.splitQuantity.isSome := by
  simp [splitsAt]

theorem mem_wholeAt :
    x ∈ db.wholeAt k ↔ x ∈ db.tradeExecution.rows ∧ x.key = k ∧ x.splitQuantity = none := by
  simp [wholeAt]

/-- The split rows of a fill name different trades. -/
theorem splitsAt_trades_nodup (db : ExecutionDb) (k : FillKey) :
    ((db.splitsAt k).map TradeExecutionRow.tradeId).Nodup := by
  rw [List.Nodup, List.pairwise_map]
  have hapart := db.tradeExecution.apart.sublist
    (List.filter_sublist (p := fun x => x.key = k ∧ x.splitQuantity.isSome))
  refine List.Pairwise.imp_of_mem (fun hx hy hxy htrade => ?_) hapart
  apply hxy
  have hx := mem_splitsAt.1 hx
  have hy := mem_splitsAt.1 hy
  exact ⟨hx.2.1.trans hy.2.1.symm, .inl htrade⟩

/-- The trade of an attribution is of the fill's account. -/
theorem account_of_mem_splitsAt (h : x ∈ db.splitsAt k) :
    ∃ t ∈ db.trades.rows, t.tradeId = x.tradeId ∧ t.accountId = k.1 := by
  obtain ⟨hx, rfl, -⟩ := mem_splitsAt.1 h
  exact (db.allowed x hx).1

/-! ## Statements on `trade_execution` -/

/-- `DELETE FROM trade_execution WHERE p`. -/
def deleteAttributions (db : ExecutionDb) (p : TradeExecutionRow → Bool) : ExecutionDb :=
  { db with
    tradeExecution := db.tradeExecution.delete p
    allowed := fun x hx => db.allowed x (List.mem_of_mem_filter hx) }

/-- The rows changed, when the foreign key and the check hold for them. -/
def withAttributions (db : ExecutionDb) (t : Sql.Store TradeExecutionRow.clash) :
    Option ExecutionDb :=
  if h : ∀ x ∈ t.rows, x.Allowed db.trades then
    some { db with tradeExecution := t, allowed := h }
  else none

/-- `INSERT INTO trade_execution`. -/
def insertAttribution (db : ExecutionDb) (x : TradeExecutionRow) : Option ExecutionDb :=
  (db.tradeExecution.insert? x).bind db.withAttributions

/-- The row attributes the fill as a whole. -/
def isWholeOf (k : FillKey) (x : TradeExecutionRow) : Bool :=
  x.key = k ∧ x.splitQuantity.isNone

/-- The row attributes a part of the fill. -/
def isSplitOf (k : FillKey) (x : TradeExecutionRow) : Bool :=
  x.key = k ∧ x.splitQuantity.isSome

/-- `INSERT … ON CONFLICT (account_id, exec_id) WHERE split_quantity IS NULL DO UPDATE`. -/
def upsertWhole (db : ExecutionDb) (k : FillKey) (tradeId : ℤ) : Option ExecutionDb :=
  if db.wholeAt k = [] then db.insertAttribution ⟨k.1, k.2, tradeId, none⟩
  else (db.tradeExecution.update? (isWholeOf k) fun x => { x with tradeId }).bind
    db.withAttributions

/-! ### What they do to a fill -/

theorem splitsAt_deleteAttributions (p : TradeExecutionRow → Bool) :
    (db.deleteAttributions p).splitsAt k = (db.splitsAt k).filter fun x => !p x := by
  simp only [splitsAt, deleteAttributions, Sql.Store.rows_delete, List.filter_filter]
  apply List.filter_congr
  intro x _
  exact Bool.and_comm ..

theorem wholeAt_deleteAttributions (p : TradeExecutionRow → Bool) :
    (db.deleteAttributions p).wholeAt k = (db.wholeAt k).filter fun x => !p x := by
  simp only [wholeAt, deleteAttributions, Sql.Store.rows_delete, List.filter_filter]
  apply List.filter_congr
  intro x _
  exact Bool.and_comm ..

theorem splitsAt_deleteSplits :
    (db.deleteAttributions (isSplitOf k)).splitsAt k' = if k' = k then [] else db.splitsAt k' := by
  rw [splitsAt_deleteAttributions]
  split_ifs with hk
  · refine List.filter_eq_nil_iff.2 fun x hx => ?_
    have hx := (mem_splitsAt.1 hx).2
    simp [isSplitOf, hx.1, hx.2, hk]
  · refine List.filter_eq_self.2 fun x hx => ?_
    have hx := (mem_splitsAt.1 hx).2
    simp [isSplitOf, hx.1, hk]

theorem wholeAt_deleteSplits :
    (db.deleteAttributions (isSplitOf k)).wholeAt k' = db.wholeAt k' := by
  rw [wholeAt_deleteAttributions]
  refine List.filter_eq_self.2 fun x hx => ?_
  have hx := (mem_wholeAt.1 hx).2
  simp [isSplitOf, hx.2]

theorem splitsAt_deleteWhole :
    (db.deleteAttributions (isWholeOf k)).splitsAt k' = db.splitsAt k' := by
  rw [splitsAt_deleteAttributions]
  refine List.filter_eq_self.2 fun x hx => ?_
  have hx := (mem_splitsAt.1 hx).2
  have hnot : x.splitQuantity.isNone = false := by
    rw [Option.isNone_eq_false_iff]
    exact hx.2
  simp [isWholeOf, hnot]

theorem wholeAt_deleteWhole :
    (db.deleteAttributions (isWholeOf k)).wholeAt k' = if k' = k then [] else db.wholeAt k' := by
  rw [wholeAt_deleteAttributions]
  split_ifs with hk
  · refine List.filter_eq_nil_iff.2 fun x hx => ?_
    have hx := (mem_wholeAt.1 hx).2
    simp [isWholeOf, hx.1, hx.2, hk]
  · refine List.filter_eq_self.2 fun x hx => ?_
    have hx := (mem_wholeAt.1 hx).2
    simp [isWholeOf, hx.1, hk]

/-- Two states with the same raw rows and trades. -/
def SameFills (db db' : ExecutionDb) : Prop := db'.raw = db.raw ∧ db'.trades = db.trades

theorem of_withAttributions {db' : ExecutionDb} {t : Sql.Store TradeExecutionRow.clash}
    (h : db.withAttributions t = some db') : db.SameFills db' ∧ db'.tradeExecution = t := by
  unfold withAttributions at h
  split at h
  · obtain rfl := Option.some.inj h
    exact ⟨⟨rfl, rfl⟩, rfl⟩
  · cases h

theorem of_insertAttribution {db' : ExecutionDb} (h : db.insertAttribution x = some db') :
    db.SameFills db' ∧ db'.tradeExecution.rows = db.tradeExecution.rows ++ [x] := by
  obtain ⟨t, ht, h⟩ := Option.bind_eq_some_iff.1 h
  obtain ⟨hsame, rfl⟩ := of_withAttributions h
  exact ⟨hsame, (Sql.Store.rows_of_insert? ht).1⟩

theorem of_insertSplit {db' : ExecutionDb} {q : ℚ} {tradeId : ℤ}
    (h : db.insertAttribution ⟨k.1, k.2, tradeId, some q⟩ = some db') :
    db.SameFills db' ∧ (∀ k', db'.wholeAt k' = db.wholeAt k') ∧
      ∀ k', db'.splitsAt k' =
        if k' = k then db.splitsAt k' ++ [⟨k.1, k.2, tradeId, some q⟩] else db.splitsAt k' := by
  obtain ⟨hsame, hrows⟩ := of_insertAttribution h
  refine ⟨hsame, fun k' => ?_, fun k' => ?_⟩
  · simp [wholeAt, hrows]
  · have hkey : (⟨k.1, k.2, tradeId, some q⟩ : TradeExecutionRow).key = k := rfl
    split_ifs with hk
    · simp [splitsAt, hrows, hkey, hk]
    · simp [splitsAt, hrows, hkey, Ne.symm hk]

/-- No split of a fill is of the trade that the fill is attributed to whole. -/
theorem tradeId_ne_of_mem_wholeAt {y : TradeExecutionRow} (hy : y ∈ db.wholeAt k) :
    ∀ x ∈ db.splitsAt k, x.tradeId ≠ y.tradeId := by
  intro x hx htrade
  obtain ⟨hyrow, hykey, hynone⟩ := mem_wholeAt.1 hy
  obtain ⟨hxrow, hxkey, hxsome⟩ := mem_splitsAt.1 hx
  have heq : x = y := db.tradeExecution.eq_of_clash TradeExecutionRow.clash_symm hxrow hyrow
    ⟨hxkey.trans hykey.symm, .inl htrade⟩
  rw [heq, hynone] at hxsome
  exact absurd hxsome (by simp)

/-- Attributing the whole fill leaves the splits and the other fills, and only goes through when
no split of the fill names the trade. -/
theorem of_upsertWhole {db' : ExecutionDb} {tradeId : ℤ}
    (h : db.upsertWhole k tradeId = some db') :
    db.SameFills db' ∧ (∀ k', db'.splitsAt k' = db.splitsAt k') ∧
      (∀ k', k' ≠ k → db'.wholeAt k' = db.wholeAt k') ∧
      ∀ x ∈ db.splitsAt k, x.tradeId ≠ tradeId := by
  unfold upsertWhole at h
  split_ifs at h with hnone
  · obtain ⟨hsame, hrows⟩ := of_insertAttribution h
    have hkey : (⟨k.1, k.2, tradeId, none⟩ : TradeExecutionRow).key = k := rfl
    have hsplits : ∀ k', db'.splitsAt k' = db.splitsAt k' := by
      intro k'
      simp [splitsAt, hrows]
    refine ⟨hsame, hsplits, fun k' hk => ?_, hsplits k ▸ tradeId_ne_of_mem_wholeAt
      (y := ⟨k.1, k.2, tradeId, none⟩) ?_⟩
    · simp [wholeAt, hrows, hkey, Ne.symm hk]
    · simp [mem_wholeAt, hrows, hkey]
  · obtain ⟨t, ht, h⟩ := Option.bind_eq_some_iff.1 h
    obtain ⟨hsame, rfl⟩ := of_withAttributions h
    have hsplits : ∀ k', db'.splitsAt k' = db.splitsAt k' := by
      intro k'
      refine Sql.Store.filter_of_update? ht fun x hx => ?_
      have hx : x.key = k ∧ x.splitQuantity.isNone := of_decide_eq_true hx
      simp [Option.isNone_iff_eq_none.1 hx.2]
    refine ⟨hsame, hsplits, fun k' hk => ?_, ?_⟩
    · refine Sql.Store.filter_of_update? ht fun x hx => ?_
      have hx : x.key = k ∧ x.splitQuantity.isNone := of_decide_eq_true hx
      have hkey : ({ x with tradeId } : TradeExecutionRow).key = k := hx.1
      simp [hx.1, hkey, Ne.symm hk]
    · obtain ⟨y, hy⟩ := List.exists_mem_of_ne_nil _ hnone
      obtain ⟨hyrow, hykey, hynone⟩ := mem_wholeAt.1 hy
      have hwhole : isWholeOf k y = true := by simp [isWholeOf, hykey, hynone]
      refine hsplits k ▸ tradeId_ne_of_mem_wholeAt (y := { y with tradeId })
        (mem_wholeAt.2 ⟨?_, hykey, hynone⟩)
      rw [Sql.Store.rows_of_update? ht]
      exact List.mem_map.2 ⟨y, hyrow, if_pos hwhole⟩

end ExecutionDb

end Persistence
