import BifrostTrade.Lib.Keyset
import BifrostTrade.Portfolio.CashTransactions
import BifrostTrade.Portfolio.TradeCalendar

/-!
# Keyset pages of executions and transactions

`portfolio/reader/keyset.py` and the two paged readers of `portfolio/reader/executions.py`.  The
condition that a cursor adds is true of exactly the rows after it in the order of the read
(`executionsAfterSql_eq_yes`, `transactionsAfterSql_eq_yes`), so that the readers' pages are keyset
pages and every row is read once (`pages_readOnce`).
-/

namespace Portfolio

open Py
open Sql (Truth Page)

/-! ## Cursors -/

/-- A value of a cursor's object.  A text is told by what it is the ISO form of. -/
inductive CursorValue where
  | null
  | bool (b : Bool)
  | int (n : ℤ)
  | isoDate (d : Date)
  | isoTime (t : ℚ)
  | text (s : String)
  deriving DecidableEq

/-- The object of a cursor, which the caller passes back as it came. -/
abbrev Cursor := List (String × CursorValue)

namespace Keyset

/-- The value is the number one. -/
def isVersion : Option CursorValue → Bool
  | some (.int n) => n = 1
  | some (.bool b) => b
  | _ => false

/-- A cursor of a kind, as its body. -/
def encode (kind : String) (payload : Cursor) : Cursor :=
  [("v", .int 1), ("k", .text kind)] ++ payload

/-- `_decode_body`; `none` is `InvalidCursor`. -/
def decodeBody (body : Cursor) (kind : String) : Option Cursor :=
  if isVersion (body.lookup "v") ∧ body.lookup "k" = some (.text kind) then some body else none

/-- `_id`. -/
def idOf (body : Cursor) : Option ℤ :=
  match body.lookup "i" with
  | some (.int n) => some n
  | _ => none

/-- `_opt_date`. -/
def optDate (body : Cursor) (key : String) : Option (Option Date) :=
  match body.lookup key with
  | none | some .null => some none
  | some (.isoDate d) => some (some d)
  | _ => none

/-- `_opt_ts`. -/
def optTs (body : Cursor) (key : String) : Option (Option ℚ) :=
  match body.lookup key with
  | none | some .null => some none
  | some (.isoTime t) => some (some t)
  | _ => none

/-- `_iso` of a date. -/
def isoOfDate : Option Date → CursorValue
  | none => .null
  | some d => .isoDate d

/-- `_iso` of a time. -/
def isoOfTime : Option ℚ → CursorValue
  | none => .null
  | some t => .isoTime t

/-- The fields of the object are these. -/
def HasFields (body : Cursor) (fields : List String) : Prop :=
  body.map Prod.fst ⊆ fields ∧ fields ⊆ body.map Prod.fst

instance (body : Cursor) (fields : List String) : Decidable (HasFields body fields) :=
  inferInstanceAs (Decidable (_ ∧ _))

end Keyset

/-- The sort key of an execution: its trade date, its time and its id. -/
abbrev ExecutionKey := Option Date × Option ℚ × ℤ

/-- The sort key of a transaction: its time and its id. -/
abbrev TransactionKey := ℚ × ℤ

open Keyset in
/-- `encode_executions`, on bodies. -/
def encodeExecutions (k : ExecutionKey) : Cursor :=
  encode "executions" [("d", isoOfDate k.1), ("t", isoOfTime k.2.1), ("i", .int k.2.2)]

open Keyset in
/-- `decode_executions`, on bodies. -/
def decodeExecutions (token : Cursor) : Option ExecutionKey :=
  (decodeBody token "executions").bind fun body =>
    if HasFields body ["v", "k", "d", "t", "i"] then
      (optDate body "d").bind fun d => (optTs body "t").bind fun t =>
        (idOf body).map fun i => (d, t, i)
    else none

open Keyset in
/-- `encode_transactions`, on bodies. -/
def encodeTransactions (k : TransactionKey) : Cursor :=
  encode "transactions" [("t", isoOfTime (some k.1)), ("i", .int k.2)]

open Keyset in
/-- `decode_transactions`, on bodies. -/
def decodeTransactions (token : Cursor) : Option TransactionKey :=
  (decodeBody token "transactions").bind fun body =>
    if HasFields body ["v", "k", "t", "i"] then
      (optTs body "t").bind fun ts => ts.bind fun t => (idOf body).map fun i => (t, i)
    else none

theorem decode_encodeExecutions (k : ExecutionKey) :
    decodeExecutions (encodeExecutions k) = some k := by
  obtain ⟨d, t, i⟩ := k
  cases d <;> cases t <;> rfl

theorem decode_encodeTransactions (k : TransactionKey) :
    decodeTransactions (encodeTransactions k) = some k := rfl

/-! ## Rows -/

/-- What a read of the executions looks at in a row. -/
structure ListedExecution where
  accountExecutionsId : ℤ
  accountId : Option String
  tradeDate : Option Date
  execTime : Option ℚ
  strategyOpportunityId : Option ℤ
  tradeId : Option ℤ
  /-- The trades of the splits that are of the row's account. -/
  splitTrades : List ℤ
  deriving DecidableEq

/-- What the list is ordered by. -/
def ListedExecution.key (r : ListedExecution) : ExecutionKey :=
  (r.tradeDate, r.execTime, r.accountExecutionsId)

/-- A view of the executions: ids are unique. -/
structure ExecutionList where
  rows : List ListedExecution
  ids_nodup : (rows.map ListedExecution.accountExecutionsId).Nodup

/-- The views that a scope selects. -/
inductive ExecutionView where
  | read
  | final
  | fly
  | tws
  deriving DecidableEq

/-- `_exec_from_for_scope`. -/
def execFromForScope (sourceScope : Option String) : ExecutionView :=
  let s := lower (strip (textOrEmpty sourceScope))
  if s = "tws_raw" then .tws
  else if s = "performance_book" then .final
  else if s = "on_the_fly" then .fly
  else .read

/-- A row of the transactions list. -/
structure ListedTransaction where
  accountTransactionsId : ℤ
  accountId : String
  ts : ℚ
  deriving DecidableEq

/-- What the list is ordered by. -/
def ListedTransaction.key (r : ListedTransaction) : TransactionKey :=
  (r.ts, r.accountTransactionsId)

/-- The transactions: ids are unique. -/
structure TransactionList where
  rows : List ListedTransaction
  ids_nodup : (rows.map ListedTransaction.accountTransactionsId).Nodup

/-! ## Conditions -/

/-- `executions_after_sql`. -/
def executionsAfterSql (k : ExecutionKey) (r : ListedExecution) : Truth :=
  let lowerId := Sql.compare (· < ·) (some r.accountExecutionsId) (some k.2.2)
  let timePart := match k.2.1 with
    | none => (Sql.isNull r.execTime).and lowerId
    | some t =>
        ((Sql.compare (· < ·) r.execTime (some t)).or (Sql.isNull r.execTime)).or
          ((Sql.compare (· = ·) r.execTime (some t)).and lowerId)
  match k.1 with
  | none => (Sql.isNull r.tradeDate).and timePart
  | some d =>
      ((Sql.compare (· < ·) r.tradeDate (some d)).or (Sql.isNull r.tradeDate)).or
        ((Sql.compare (· = ·) r.tradeDate (some d)).and timePart)

/-- `transactions_after_sql`. -/
def transactionsAfterSql (k : TransactionKey) (r : ListedTransaction) : Truth :=
  (Sql.compare (· ≤ ·) (some r.ts) (some k.1)).and
    ((Sql.compare (· < ·) (some r.ts) (some k.1)).or
      ((Sql.compare (· = ·) (some r.ts) (some k.1)).and
        (Sql.compare (· < ·) (some r.accountTransactionsId) (some k.2))))

/-- The order of the executions: `trade_date DESC NULLS LAST, exec_time DESC NULLS LAST,
account_executions_id DESC`; a missing value is the lowest. -/
def executionOrder (k : ExecutionKey) : (WithBot Date ×ₗ WithBot ℚ ×ₗ ℤ)ᵒᵈ :=
  OrderDual.toDual (toLex (k.1, toLex (k.2.1, k.2.2)))

/-- The order of the transactions: `ts DESC, account_transactions_id DESC`. -/
def transactionOrder (k : TransactionKey) : (ℚ ×ₗ ℤ)ᵒᵈ := OrderDual.toDual (toLex k)

theorem withBot_lt_iff {α : Type} [LinearOrder α] {x y : Option α} :
    @LT.lt (WithBot α) _ x y ↔ (∃ b ∈ y, x = none) ∨ ∃ a ∈ x, ∃ b ∈ y, a < b := by
  cases x with
  | none =>
    cases y with
    | none => exact iff_of_false (lt_irrefl (⊥ : WithBot α)) (by simp)
    | some b => exact iff_of_true (WithBot.bot_lt_coe b) (.inl ⟨b, rfl, rfl⟩)
  | some a =>
    cases y with
    | none => exact iff_of_false (fun h => not_lt_bot h) (by simp)
    | some b => exact WithBot.coe_lt_coe.trans (by simp)

theorem executionOrder_lt {k k' : ExecutionKey} :
    executionOrder k < executionOrder k' ↔
      @LT.lt (WithBot Date) _ k'.1 k.1 ∨ k'.1 = k.1 ∧
        (@LT.lt (WithBot ℚ) _ k'.2.1 k.2.1 ∨ k'.2.1 = k.2.1 ∧ k'.2.2 < k.2.2) := by
  simp only [executionOrder, OrderDual.toDual_lt_toDual, Prod.Lex.toLex_lt_toLex]
  exact Iff.rfl

/-- The condition of a cursor is true of the rows after it. -/
theorem executionsAfterSql_eq_yes {k : ExecutionKey} {r : ListedExecution} :
    executionsAfterSql k r = .yes ↔ executionOrder k < executionOrder r.key := by
  obtain ⟨d, t, i⟩ := k
  rw [executionOrder_lt, withBot_lt_iff, withBot_lt_iff]
  cases d <;> cases t <;> cases hd : r.tradeDate <;> cases ht : r.execTime <;>
    simp [executionsAfterSql, ListedExecution.key, hd, ht]

theorem transactionsAfterSql_eq_yes {k : TransactionKey} {r : ListedTransaction} :
    transactionsAfterSql k r = .yes ↔ transactionOrder k < transactionOrder r.key := by
  obtain ⟨t, i⟩ := k
  simp only [transactionsAfterSql, transactionOrder, ListedTransaction.key, Truth.and_eq_yes,
    Truth.or_eq_yes, Sql.compare_some_eq_yes, OrderDual.toDual_lt_toDual,
    Prod.Lex.toLex_lt_toLex]
  refine ⟨fun h => h.2, fun h => ⟨?_, h⟩⟩
  rcases h with hlt | ⟨heq, -⟩
  · exact hlt.le
  · exact heq.le

/-! ## The readers -/

/-- The page of the rows read, one more than the limit, and the cursor of the next. -/
def pageOf {β : Type} (limit : ℕ) (rows : List β) (cursor : β → Cursor) : Page β Cursor :=
  if limit < rows.length then ⟨rows.take limit, (rows.take limit).getLast?.map cursor⟩
  else ⟨rows, none⟩

/-- What a page of executions is asked for. -/
structure ExecutionsQuery where
  sinceTs : Option ℚ
  untilTs : Option ℚ
  filter : ReadFilter
  sourceScope : Option String

section Executions

-- the date in Chicago of a time, where it has one
variable (chicago : ℚ → Option Date)

/-- A time of the query has no date. -/
def ExecutionsQuery.Fails (q : ExecutionsQuery) : Prop :=
  (∃ ts ∈ q.sinceTs, chicago ts = none) ∨ ∃ ts ∈ q.untilTs, chicago ts = none

instance (q : ExecutionsQuery) : Decidable (q.Fails chicago) :=
  inferInstanceAs (Decidable (_ ∨ _))

/-- The conditions of the filters. -/
def ExecutionsQuery.conditions (q : ExecutionsQuery) (r : ListedExecution) : List Truth :=
  let account := strip (textOrEmpty q.filter.accountId)
  (q.sinceTs.bind chicago).toList.map (fun d => Sql.compare (· ≤ ·) (some d) r.tradeDate) ++
  (q.untilTs.bind chicago).toList.map (fun d => Sql.compare (· ≤ ·) r.tradeDate (some d)) ++
  (if account = "" then [] else [Sql.compare (· = ·) r.accountId (some account)]) ++
  q.filter.strategyOpportunityId.toList.map
    (fun o => Sql.compare (· = ·) r.strategyOpportunityId (some o)) ++
  q.filter.tradeId.toList.map fun t =>
    (Sql.compare (· = ·) r.tradeId (some t)).or (.ofBool (t ∈ r.splitTrades))

/-- The rows that the filters select. -/
def ExecutionsQuery.selected (q : ExecutionsQuery) (views : ExecutionView → ExecutionList) :
    List ListedExecution :=
  (views (execFromForScope q.sourceScope)).rows.filter fun r =>
    Truth.all (q.conditions chicago r) = .yes

/-- `_read_executions`. -/
def readExecutions (views : ExecutionView → ExecutionList) (q : ExecutionsQuery)
    (limit : Option ℕ) (after : Option ExecutionKey) : List ListedExecution :=
  -- a failed read is empty
  if q.Fails chicago then []
  else
    let rows := (views (execFromForScope q.sourceScope)).rows.filter fun r =>
      Truth.all (q.conditions chicago r ++ after.toList.map fun k => executionsAfterSql k r) = .yes
    let sorted := sortedBy (fun r => executionOrder r.key) rows
    match limit with
    | some n => sorted.take n
    | none => sorted

/-- `get_executions_page`; `none` is `InvalidCursor`. -/
def getExecutionsPage (q : ExecutionsQuery) (limit : Option ℤ)
    (views : ExecutionView → ExecutionList) (cursor : Option Cursor) :
    Option (Page ListedExecution Cursor) :=
  let page (after : Option ExecutionKey) : Page ListedExecution Cursor :=
    match limit.filter fun n => 0 < n with
    | none => ⟨readExecutions chicago views q none after, none⟩
    | some n =>
        pageOf n.toNat (readExecutions chicago views q (some (n.toNat + 1)) after) fun r =>
          encodeExecutions r.key
  match cursor with
  | none => some (page none)
  | some token => (decodeExecutions token).map fun after => page (some after)

end Executions

/-- What a page of transactions is asked for. -/
structure TransactionsQuery where
  sinceTs : Option ℚ
  untilTs : Option ℚ
  accountId : Option String

/-- The conditions of the filters; `to_timestamp` counts microseconds. -/
def TransactionsQuery.conditions (q : TransactionsQuery) (r : ListedTransaction) : List Truth :=
  let account := strip (textOrEmpty q.accountId)
  q.sinceTs.toList.map
    (fun ts => Sql.compare (· ≤ ·) (some ((toTimestamp ts : ℚ) / 10 ^ 6)) (some r.ts)) ++
  q.untilTs.toList.map
    (fun ts => Sql.compare (· ≤ ·) (some r.ts) (some ((toTimestamp ts : ℚ) / 10 ^ 6))) ++
  if account = "" then [] else [Sql.compare (· = ·) (some r.accountId) (some account)]

/-- The rows that the filters select. -/
def TransactionsQuery.selected (q : TransactionsQuery) (t : TransactionList) :
    List ListedTransaction := t.rows.filter fun r => Truth.all (q.conditions r) = .yes

/-- `_read_transactions`; a negative limit makes the read fail, and a failed read is empty. -/
def readTransactions (t : TransactionList) (q : TransactionsQuery) (limit : Option ℤ)
    (after : Option TransactionKey) : List ListedTransaction :=
  let rows := t.rows.filter fun r =>
    Truth.all (q.conditions r ++ after.toList.map fun k => transactionsAfterSql k r) = .yes
  let sorted := sortedBy (fun r => transactionOrder r.key) rows
  match limit with
  | none => sorted
  | some n => if n < 0 then [] else sorted.take n.toNat

/-- `get_transactions_page`; `none` is `InvalidCursor`. -/
def getTransactionsPage (q : TransactionsQuery) (limit : Option ℤ) (t : TransactionList)
    (cursor : Option Cursor) : Option (Page ListedTransaction Cursor) :=
  let page (after : Option TransactionKey) : Page ListedTransaction Cursor :=
    match limit.filter fun n => 0 < n with
    | none => ⟨readTransactions t q limit after, none⟩
    | some n =>
        pageOf n.toNat (readTransactions t q (some (n + 1)) after) fun r =>
          encodeTransactions r.key
  match cursor with
  | none => some (page none)
  | some token => (decodeTransactions token).map fun after => page (some after)

/-! ## The pages are keyset pages -/

/-- The rows read after a key are the rows selected that come after it. -/
theorem filter_after {β κ : Type} [LinearOrder κ] {key : β → κ} {rows : List β}
    {conditions : β → List Truth} {γ : Type} {order : γ → κ} {afterSql : γ → β → Truth}
    (hafter : ∀ k r, afterSql k r = .yes ↔ order k < key r) (after : Option γ) :
    sortedBy key (rows.filter fun r =>
      Truth.all (conditions r ++ after.toList.map fun k => afterSql k r) = .yes) =
      Sql.rest key (rows.filter fun r => Truth.all (conditions r) = .yes) (after.map order) := by
  rw [Sql.rest, List.filter_filter]
  congr 1
  refine List.filter_congr fun r _ => ?_
  rw [Bool.eq_iff_iff, Bool.and_eq_true, decide_eq_true_eq, decide_eq_true_eq, decide_eq_true_eq,
    Truth.all_eq_yes, Truth.all_eq_yes, List.forall_mem_append, and_comm]
  cases after with
  | none => simp [Sql.After]
  | some k => simp [Sql.After, hafter]

theorem pageOf_eq {β κ : Type} [LinearOrder κ] {key : β → κ} {rows : List β} {c : Option κ}
    {limit : ℕ} {cursor : β → Cursor} {encode : κ → Cursor}
    (hcursor : ∀ r, encode (key r) = cursor r) :
    pageOf limit ((Sql.rest key rows c).take (limit + 1)) cursor =
      ⟨(Sql.keysetPage key limit rows c).items,
        (Sql.keysetPage key limit rows c).next.map encode⟩ := by
  unfold pageOf Sql.keysetPage
  dsimp only
  split_ifs
  · simp only [Option.map_map, Function.comp_def, hcursor]
  · rfl

/-- The key that stands at a place in the order. -/
def executionKeyAt (k : (WithBot Date ×ₗ WithBot ℚ ×ₗ ℤ)ᵒᵈ) : ExecutionKey :=
  ((ofLex (OrderDual.ofDual k)).1, (ofLex (ofLex (OrderDual.ofDual k)).2).1,
    (ofLex (ofLex (OrderDual.ofDual k)).2).2)

/-- The key that stands at a place in the order. -/
def transactionKeyAt (k : (ℚ ×ₗ ℤ)ᵒᵈ) : TransactionKey := ofLex (OrderDual.ofDual k)

section

variable {chicago : ℚ → Option Date} {limit : ℤ}

theorem filter_positive {limit : ℤ} (h : 1 ≤ limit) :
    (some limit).filter (fun n => 0 < n) = some limit := by
  rw [Option.filter_some, if_pos (decide_eq_true (by omega))]

theorem getExecutionsPage_eq (hlimit : 1 ≤ limit) {q : ExecutionsQuery} (hreads : ¬ q.Fails chicago)
    (views : ExecutionView → ExecutionList) (c : Option (WithBot Date ×ₗ WithBot ℚ ×ₗ ℤ)ᵒᵈ) :
    getExecutionsPage chicago q (some limit) views
        (c.map fun k => encodeExecutions (executionKeyAt k)) =
      (Sql.keysetRead (fun r => executionOrder r.key) limit.toNat (q.selected chicago views) c).map
        fun p => ⟨p.items, p.next.map fun k => encodeExecutions (executionKeyAt k)⟩ := by
  have hread : ∀ after : Option ExecutionKey,
      pageOf limit.toNat (readExecutions chicago views q (some (limit.toNat + 1)) after)
          (fun r => encodeExecutions r.key) =
        ⟨(Sql.keysetPage (fun r => executionOrder r.key) limit.toNat (q.selected chicago views)
            (after.map executionOrder)).items,
          (Sql.keysetPage (fun r => executionOrder r.key) limit.toNat (q.selected chicago views)
            (after.map executionOrder)).next.map fun k => encodeExecutions (executionKeyAt k)⟩ := by
    intro after
    have hafter : ∀ (k : ExecutionKey) (r : ListedExecution),
        executionsAfterSql k r = .yes ↔ executionOrder k < executionOrder r.key :=
      fun _ _ => executionsAfterSql_eq_yes
    rw [readExecutions, if_neg hreads]
    dsimp only
    rw [filter_after hafter after]
    exact pageOf_eq fun r => rfl
  cases c with
  | none =>
    simp only [getExecutionsPage, filter_positive hlimit, Option.map_none, Sql.keysetRead,
      Option.map_some]
    exact congrArg some (hread none)
  | some k =>
    simp only [getExecutionsPage, filter_positive hlimit, Sql.keysetRead, Option.map_some,
      decode_encodeExecutions]
    exact congrArg some (hread (some (executionKeyAt k)))

theorem getTransactionsPage_eq (hlimit : 1 ≤ limit) (q : TransactionsQuery) (t : TransactionList)
    (c : Option (ℚ ×ₗ ℤ)ᵒᵈ) :
    getTransactionsPage q (some limit) t
        (c.map fun k => encodeTransactions (transactionKeyAt k)) =
      (Sql.keysetRead (fun r => transactionOrder r.key) limit.toNat (q.selected t) c).map
        fun p => ⟨p.items, p.next.map fun k => encodeTransactions (transactionKeyAt k)⟩ := by
  have hread : ∀ after : Option TransactionKey,
      pageOf limit.toNat (readTransactions t q (some (limit + 1)) after)
          (fun r => encodeTransactions r.key) =
        ⟨(Sql.keysetPage (fun r => transactionOrder r.key) limit.toNat (q.selected t)
            (after.map transactionOrder)).items,
          (Sql.keysetPage (fun r => transactionOrder r.key) limit.toNat (q.selected t)
            (after.map transactionOrder)).next.map
              fun k => encodeTransactions (transactionKeyAt k)⟩ := by
    intro after
    have hnonneg : ¬ limit + 1 < 0 := by omega
    have htoNat : (limit + 1).toNat = limit.toNat + 1 := by omega
    have hafter : ∀ (k : TransactionKey) (r : ListedTransaction),
        transactionsAfterSql k r = .yes ↔ transactionOrder k < transactionOrder r.key :=
      fun _ _ => transactionsAfterSql_eq_yes
    rw [readTransactions, filter_after hafter after, if_neg hnonneg, htoNat]
    exact pageOf_eq fun r => rfl
  cases c with
  | none =>
    simp only [getTransactionsPage, filter_positive hlimit, Option.map_none, Sql.keysetRead,
      Option.map_some]
    exact congrArg some (hread none)
  | some k =>
    simp only [getTransactionsPage, filter_positive hlimit, Sql.keysetRead, Option.map_some,
      decode_encodeTransactions]
    exact congrArg some (hread (some (transactionKeyAt k)))

theorem selected_keys_nodup (q : ExecutionsQuery) (views : ExecutionView → ExecutionList) :
    ((q.selected chicago views).map fun r => executionOrder r.key).Nodup := by
  have hids := (views (execFromForScope q.sourceScope)).ids_nodup.sublist
    (List.filter_sublist (p := fun r => Truth.all (q.conditions chicago r) = .yes).map _)
  refine List.Nodup.of_map (fun k => (executionKeyAt k).2.2) ?_
  rw [List.map_map]
  exact hids

theorem transaction_keys_nodup (q : TransactionsQuery) (t : TransactionList) :
    ((q.selected t).map fun r => transactionOrder r.key).Nodup := by
  have hids := t.ids_nodup.sublist
    (List.filter_sublist (p := fun r => Truth.all (q.conditions r) = .yes).map _)
  refine List.Nodup.of_map (fun k => (transactionKeyAt k).2) ?_
  rw [List.map_map]
  exact hids

/-- Following the cursors reads every execution and every transaction that the filters select once
and in order, also while others are inserted and deleted. -/
theorem pages_readOnce (hlimit : 1 ≤ limit) (q : ExecutionsQuery) (hreads : ¬ q.Fails chicago)
    (q' : TransactionsQuery) :
    Sql.ReadsOnce (getExecutionsPage chicago q (some limit)) (fun r => executionOrder r.key)
        limit.toNat (q.selected chicago) ∧
      Sql.ReadsOnce (getTransactionsPage q' (some limit)) (fun r => transactionOrder r.key)
        limit.toNat q'.selected := by
  have hpos : 0 < limit.toNat := by omega
  constructor
  · exact Sql.readsOnce_of_encode (selected_keys_nodup q) hpos
      fun views c => getExecutionsPage_eq hlimit hreads views c
  · exact Sql.readsOnce_of_encode (transaction_keys_nodup q') hpos
      fun t c => getTransactionsPage_eq hlimit q' t c

/-! ## The first page -/

/-- What a read looks at in a row of a book. -/
def AttributedRow.listed (r : AttributedRow) : ListedExecution where
  accountExecutionsId := r.accountExecutionsId
  accountId := some r.accountId
  tradeDate := r.tradeDate
  execTime := r.execTime
  strategyOpportunityId := r.strategyOpportunityId
  tradeId := r.tradeId
  splitTrades := r.fillSplits.map fun a => a.tradeId

/-- The executions of a book as a list. -/
def TradeBook.listed (book : TradeBook) : ExecutionList where
  rows := book.rows.map AttributedRow.listed
  ids_nodup := by
    rw [List.map_map]
    exact book.ids_nodup

theorem conditions_listed (q : ExecutionsQuery) (r : AttributedRow) :
    Truth.all (q.conditions chicago r.listed) = .yes ↔
      (∀ s ∈ q.sinceTs.bind chicago, ∃ d ∈ r.tradeDate, s ≤ d) ∧
        (∀ u ∈ q.untilTs.bind chicago, ∃ d ∈ r.tradeDate, d ≤ u) ∧ q.filter.Selects r := by
  rw [Truth.all_eq_yes]
  simp only [ExecutionsQuery.conditions, List.forall_mem_append, List.forall_mem_map,
    Option.mem_toList, Truth.or_eq_yes, Truth.ofBool_eq_yes, Sql.compare_eq_yes,
    AttributedRow.listed, ReadFilter.Selects]
  by_cases haccount : strip (textOrEmpty q.filter.accountId) = ""
  · simp [haccount, and_assoc]
  · simp [haccount, and_assoc]

/-- Without a cursor a read gives what `getTradeExecutions` gives. -/
theorem readExecutions_listed (book : TradeBook) (q : ExecutionsQuery) {n : ℕ} (hn : 0 < n) :
    (readExecutions chicago (fun _ => book.listed) q (some n) none).map
        (fun r => some r.accountExecutionsId) =
      (getTradeExecutions chicago book q.sinceTs q.untilTs q.filter n).map
        fun e => e.accountExecutionsId := by
  unfold readExecutions getTradeExecutions
  by_cases hfails : q.Fails chicago
  · rw [if_pos hfails]
    unfold ExecutionsQuery.Fails at hfails
    rw [if_pos hfails]
    rfl
  · rw [if_neg hfails]
    unfold ExecutionsQuery.Fails at hfails
    rw [if_neg hfails]
    dsimp only
    rw [if_pos hn]
    have hrows : book.listed.rows.filter (fun r => Truth.all (q.conditions chicago r ++
          (none : Option ExecutionKey).toList.map fun k => executionsAfterSql k r) = .yes) =
        (book.rows.filter fun r =>
          (∀ s ∈ q.sinceTs.bind chicago, ∃ d ∈ r.tradeDate, s ≤ d) ∧
            (∀ u ∈ q.untilTs.bind chicago, ∃ d ∈ r.tradeDate, d ≤ u) ∧ q.filter.Selects r).map
          AttributedRow.listed := by
      rw [TradeBook.listed, List.filter_map]
      congr 1
      refine List.filter_congr fun r _ => ?_
      rw [Bool.eq_iff_iff, decide_eq_true_eq, ← conditions_listed, Function.comp_apply,
        decide_eq_true_eq, Option.toList_none, List.map_nil, List.append_nil]
    rw [hrows, sortedBy_map, ← List.map_take, List.map_map, List.map_map]
    rfl

end

/-- A fill with a trade date and a time, and one without either. -/
def twoFills : ExecutionList where
  rows := [⟨-7, some "U1", none, none, none, none, []⟩,
    ⟨3, none, Date.ofYmd 2026 9 1, some 1788270300, none, some 1, []⟩]
  ids_nodup := by decide

/-- No filter on the executions. -/
def everyExecution : ExecutionsQuery := ⟨none, none, ⟨none, none, none⟩, none⟩

/-- No filter on the transactions. -/
def everyTransaction : TransactionsQuery := ⟨none, none, none⟩

theorem pages_readOnce_single :
    Sql.ReadsOnce (getExecutionsPage sampleChicago everyExecution (some 1))
        (fun r => executionOrder r.key) 1 (everyExecution.selected sampleChicago) ∧
      Sql.ReadsOnce (getTransactionsPage everyTransaction (some 1))
        (fun r => transactionOrder r.key) 1 everyTransaction.selected :=
  pages_readOnce (by decide) everyExecution (by decide +kernel) everyTransaction

/-- The row without a date comes last, and its page has no next one. -/
example : ((getExecutionsPage sampleChicago everyExecution (some 1) (fun _ => twoFills) none).bind
    fun p => getExecutionsPage sampleChicago everyExecution (some 1) (fun _ => twoFills) p.next) =
    some ⟨[⟨-7, some "U1", none, none, none, none, []⟩], none⟩ := by
  decide +kernel

end Portfolio
