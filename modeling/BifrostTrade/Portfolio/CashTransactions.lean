import BifrostTrade.Lib.Runs
import BifrostTrade.Portfolio.ExecutionWriters
import BifrostTrade.Portfolio.TradeSlice

/-!
# The import of cash transactions

`upsert_account_transactions` of `portfolio/reader/accounts.py` on the table `transactions` of
`brokerage_ddl.py`.  A row with a Flex id is merged with the row of that id, and one without with
the row that has the same five columns; but the five columns are unique for all rows, so a
transaction with an id that has them in common with a row that is not its own makes the import
fail, and one without is merged into the row of an id, with which it moves.  Where neither happens
every import keeps what it should (`importsKept_of_keptApart`).
-/

namespace Portfolio

open Py

/-! ## The table -/

/-- The columns that a later import only fills in. -/
structure TransactionDetails where
  currency : Option String
  description : Option String
  flexType : Option String
  flexCode : Option String
  assetCategory : Option String
  assetSubcategory : Option String
  symbol : Option String
  conid : Option ℤ
  securityId : Option String
  securityIdType : Option String
  listingExchange : Option String
  availableForTradingDate : Option Date
  fxRateToBase : Option Double
  rawExtra : Option String
  deriving DecidableEq

/-- `COALESCE(EXCLUDED.c, c)` in every column. -/
def TransactionDetails.coalesce (new old : TransactionDetails) : TransactionDetails where
  currency := new.currency.or old.currency
  description := new.description.or old.description
  flexType := new.flexType.or old.flexType
  flexCode := new.flexCode.or old.flexCode
  assetCategory := new.assetCategory.or old.assetCategory
  assetSubcategory := new.assetSubcategory.or old.assetSubcategory
  symbol := new.symbol.or old.symbol
  conid := new.conid.or old.conid
  securityId := new.securityId.or old.securityId
  securityIdType := new.securityIdType.or old.securityIdType
  listingExchange := new.listingExchange.or old.listingExchange
  availableForTradingDate := new.availableForTradingDate.or old.availableForTradingDate
  fxRateToBase := new.fxRateToBase.or old.fxRateToBase
  rawExtra := new.rawExtra.or old.rawExtra

/-- A row of `transactions`; the time is in microseconds. -/
structure Transaction where
  accountId : String
  ts : ℤ
  amount : Double
  type : String
  reportDate : Option Date
  flexTransactionId : Option String
  details : TransactionDetails
  deriving DecidableEq

namespace Transaction

/-- The same five columns; a missing report date is unlike any other. -/
def SameColumns (r s : Transaction) : Prop :=
  r.reportDate.isSome ∧ r.accountId = s.accountId ∧ r.ts = s.ts ∧ r.amount = s.amount ∧
    r.type = s.type ∧ r.reportDate = s.reportDate

/-- The same account and Flex id. -/
def SameFlexId (r s : Transaction) : Prop :=
  r.flexTransactionId.isSome ∧ r.accountId = s.accountId ∧
    r.flexTransactionId = s.flexTransactionId

instance : DecidableRel SameColumns := fun _ _ => inferInstanceAs (Decidable (_ ∧ _))

instance : DecidableRel SameFlexId := fun _ _ => inferInstanceAs (Decidable (_ ∧ _))

/-- `UNIQUE(account_id, ts, amount, type, report_date)` and the partial index on the Flex ids. -/
def clash (r s : Transaction) : Prop := r.SameColumns s ∨ r.SameFlexId s

instance : DecidableRel clash := fun _ _ => inferInstanceAs (Decidable (_ ∨ _))

theorem SameColumns.symm {r s : Transaction} (h : r.SameColumns s) : s.SameColumns r :=
  ⟨h.2.2.2.2.2 ▸ h.1, h.2.1.symm, h.2.2.1.symm, h.2.2.2.1.symm, h.2.2.2.2.1.symm,
    h.2.2.2.2.2.symm⟩

theorem SameFlexId.symm {r s : Transaction} (h : r.SameFlexId s) : s.SameFlexId r :=
  ⟨h.2.2 ▸ h.1, h.2.1.symm, h.2.2.symm⟩

theorem SameColumns.trans {r s u : Transaction} (h : r.SameColumns s) (h' : s.SameColumns u) :
    r.SameColumns u :=
  ⟨h.1, h.2.1.trans h'.2.1, h.2.2.1.trans h'.2.2.1, h.2.2.2.1.trans h'.2.2.2.1,
    h.2.2.2.2.1.trans h'.2.2.2.2.1, h.2.2.2.2.2.trans h'.2.2.2.2.2⟩

theorem SameFlexId.trans {r s u : Transaction} (h : r.SameFlexId s) (h' : s.SameFlexId u) :
    r.SameFlexId u :=
  ⟨h.1, h.2.1.trans h'.2.1, h.2.2.trans h'.2.2⟩

theorem clash_symm (r s : Transaction) (h : r.clash s) : s.clash r :=
  h.imp SameColumns.symm SameFlexId.symm

/-- A stored row with what an import fills in. -/
def enriching (tx s : Transaction) : Transaction :=
  { s with
    flexTransactionId := tx.flexTransactionId.or s.flexTransactionId
    details := tx.details.coalesce s.details }

/-- A stored row with what an import of its Flex id replaces and fills in. -/
def replacing (tx s : Transaction) : Transaction :=
  { tx.enriching s with
    ts := tx.ts
    amount := tx.amount
    type := tx.type
    reportDate := tx.reportDate }

end Transaction

/-- `account_transactions`. -/
abbrev TransactionTable := Sql.Store Transaction.clash

/-! ## The import -/

/-- A row of the Flex list.  A time or an id that is no number is as good as a missing one. -/
structure CashRow where
  accountId : Option String
  ts : Option ℚ
  amount : Option Double
  type : Option String
  currency : Option String
  description : Option String
  flexTransactionId : Option String
  flexType : Option String
  flexCode : Option String
  assetCategory : Option String
  assetSubcategory : Option String
  symbol : Option String
  conid : Option ℤ
  securityId : Option String
  securityIdType : Option String
  listingExchange : Option String
  reportDate : Option String
  availableForTradingDate : Option String
  fxRateToBase : Option Double
  rawExtra : Option String

/-- `to_timestamp`: microseconds. -/
def toTimestamp (ts : ℚ) : ℤ := Py.round (ts * 10 ^ 6)

/-- A row that is not written. -/
def CashRow.Skipped (r : CashRow) : Prop :=
  nonBlank r.accountId = none ∨ r.ts = none ∨ nonBlank r.reportDate = none

instance (r : CashRow) : Decidable r.Skipped := inferInstanceAs (Decidable (_ ∨ _))

section Import

-- what the database reads a text as in a column of dates
variable (dateOf : String → Option Date)

/-- The row that a statement carries; none where a text is no date, on which it fails. -/
def CashRow.transaction (r : CashRow) : Option Transaction :=
  match nonBlank r.accountId, r.ts, (nonBlank r.reportDate).bind dateOf,
    ((nonBlank r.availableForTradingDate).map dateOf) with
  | _, _, _, some none => none
  | some accountId, some ts, some reportDate, available =>
      some
        { accountId
          ts := toTimestamp ts
          amount := r.amount.getD (.fin 0)
          type := stripOr "other" r.type
          reportDate := some reportDate
          flexTransactionId := nonBlank r.flexTransactionId
          details :=
            { currency := nonBlank r.currency
              description := nonBlank r.description
              flexType := nonBlank r.flexType
              flexCode := nonBlank r.flexCode
              assetCategory := nonBlank r.assetCategory
              assetSubcategory := nonBlank r.assetSubcategory
              symbol := nonBlank r.symbol
              conid := r.conid
              securityId := nonBlank r.securityId
              securityIdType := nonBlank r.securityIdType
              listingExchange := nonBlank r.listingExchange
              availableForTradingDate := available.join
              fxRateToBase := r.fxRateToBase
              rawExtra := r.rawExtra } }
  | _, _, _, _ => none

/-- The statement for one row: `sql_flex_id` or `sql_legacy`. -/
def upsertTransaction (t : TransactionTable) (tx : Transaction) : Option TransactionTable :=
  if tx.flexTransactionId.isSome then t.upsert? (fun s => tx.SameFlexId s) tx tx.replacing
  else t.upsert? (fun s => tx.SameColumns s) tx tx.enriching

/-- The loop's body, with the rows written and skipped. -/
def importCashRow (st : TransactionTable × ℕ × ℕ) (r : CashRow) :
    Option (TransactionTable × ℕ × ℕ) :=
  if r.Skipped then some (st.1, st.2.1, st.2.2 + 1)
  else (r.transaction dateOf).bind fun tx =>
    (upsertTransaction st.1 tx).map fun t => (t, st.2.1 + 1, st.2.2)

/-- `upsert_account_transactions`: one transaction; `none` is an error that takes it back. -/
def upsertAccountTransactions (t : TransactionTable) (rows : List CashRow) :
    Option (TransactionTable × ℕ × ℕ) :=
  rows.foldlM (importCashRow dateOf) (t, 0, 0)

/-- Imports one after the other, none of which fails. -/
def importAll (t : TransactionTable) (batches : List (List CashRow)) : Option TransactionTable :=
  batches.foldlM (fun t rows => (upsertAccountTransactions dateOf t rows).map Prod.fst) t

/-- A row that can be written. -/
def CashRow.Valid (r : CashRow) : Prop := ¬ r.Skipped ∧ (r.transaction dateOf).isSome

instance (r : CashRow) : Decidable (r.Valid dateOf) := inferInstanceAs (Decidable (_ ∧ _))

/-- The transactions that the rows carry. -/
def transactionsOf (rows : List CashRow) : List Transaction :=
  rows.filterMap fun r => r.transaction dateOf

end Import

/-! ## What imports keep -/

/-- What was imported is stored: each Flex id once with what was last written for it, and the five
columns of each transaction without one once. -/
structure Imported (history : List Transaction) (t : TransactionTable) : Prop where
  byId : ∀ pre tx post, history = pre ++ tx :: post → tx.flexTransactionId.isSome →
    (∀ later ∈ post, ¬ tx.SameFlexId later) →
    ∃ s ∈ t.rows, tx.SameFlexId s ∧ (s.ts = tx.ts ∧ s.amount = tx.amount ∧ s.type = tx.type ∧
      s.reportDate = tx.reportDate) ∧ ∀ s' ∈ t.rows, tx.SameFlexId s' → s' = s
  plain : ∀ tx ∈ history, tx.flexTransactionId = none →
    ∃ s ∈ t.rows, tx.SameColumns s ∧ ∀ s' ∈ t.rows, tx.SameColumns s' → s' = s

/-- The imports succeed and keep what was imported. -/
def ImportsKept (dateOf : String → Option Date) (start : TransactionTable)
    (batches : List (List CashRow)) : Prop :=
  ∃ t, importAll dateOf start batches = some t ∧ Imported (transactionsOf dateOf batches.flatten) t

/-- A stored row with the five columns of the transaction has its Flex id, or none where it has
none. -/
def OwnColumns (t : TransactionTable) (tx : Transaction) : Prop :=
  ∀ s ∈ t.rows, tx.SameColumns s → s.flexTransactionId = tx.flexTransactionId

instance (t : TransactionTable) (tx : Transaction) : Decidable (OwnColumns t tx) :=
  inferInstanceAs (Decidable (∀ s ∈ t.rows, _))

/-- The row of the transaction's Flex id has no columns of an earlier transaction without one, but
those it keeps. -/
def MovesNoPlain (before : List Transaction) (t : TransactionTable) (tx : Transaction) : Prop :=
  ∀ s ∈ t.rows, tx.SameFlexId s →
    ∀ p ∈ before, p.flexTransactionId = none → p.SameColumns s → p.SameColumns tx

instance (before : List Transaction) (t : TransactionTable) (tx : Transaction) :
    Decidable (MovesNoPlain before t tx) := inferInstanceAs (Decidable (∀ s ∈ t.rows, _))

/-- A transaction with a Flex id meets no row but its own, and moves none that stands for a
transaction without one. -/
def KeptApart (before : List Transaction) (t : TransactionTable) (tx : Transaction) : Prop :=
  tx.flexTransactionId.isSome → OwnColumns t tx ∧ MovesNoPlain before t tx

instance (before : List Transaction) (t : TransactionTable) (tx : Transaction) :
    Decidable (KeptApart before t tx) := inferInstanceAs (Decidable (_ → _))

/-- The table after a statement that succeeds. -/
def transactionStep (t : TransactionTable) (tx : Transaction) : TransactionTable :=
  (upsertTransaction t tx).getD t

variable {t t' : TransactionTable} {tx s : Transaction}

theorem flexId_enriching (tx s : Transaction) :
    (tx.enriching s).flexTransactionId = tx.flexTransactionId.or s.flexTransactionId := rfl

/-- A transaction with a Flex id goes in or replaces the row of the id. -/
theorem exists_upsert_flexId (hid : tx.flexTransactionId.isSome) (hown : OwnColumns t tx) :
    ∃ t', t.upsert? (fun s => tx.SameFlexId s) tx tx.replacing = some t' := by
  have hflex : ∀ s ∈ t.rows, decide (tx.SameFlexId s) = false → ¬ tx.clash s := by
    intro s hs hp hclash
    have hp : ¬ tx.SameFlexId s := of_decide_eq_false hp
    rcases hclash with hcols | hsame
    · exact hp ⟨hid, hcols.2.1, (hown s hs hcols).symm⟩
    · exact hp hsame
  refine Sql.Store.exists_upsert? Transaction.clash_symm (fun r s hr hs => ?_)
    (fun s hs hp h => hflex s hs hp (Transaction.clash_symm _ _ h)) fun r _ hpr s hs hp h => ?_
  · exact .inr ((of_decide_eq_true hr).symm.trans (of_decide_eq_true hs))
  · have hr : tx.SameFlexId r := of_decide_eq_true hpr
    refine hflex s hs hp (h.imp (fun h => ?_) fun h => ?_)
    · exact ⟨h.1, hr.2.1.trans h.2.1, h.2.2⟩
    · have hkept : (tx.replacing r).flexTransactionId = tx.flexTransactionId := by
        obtain ⟨x, hx⟩ := Option.isSome_iff_exists.1 hid
        show tx.flexTransactionId.or r.flexTransactionId = _
        rw [hx]
        rfl
      exact ⟨hid, hr.2.1.trans h.2.1, hkept.symm.trans h.2.2⟩

/-- A transaction without a Flex id goes in or fills in the row with its columns. -/
theorem exists_upsert_plain (hid : tx.flexTransactionId = none) :
    ∃ t', t.upsert? (fun s => tx.SameColumns s) tx tx.enriching = some t' := by
  refine Sql.Store.exists_upsert? Transaction.clash_symm (fun r s hr hs => ?_)
    (fun s hs hp h => ?_) fun r hr hpr s hs hp h => ?_
  · exact .inl ((of_decide_eq_true hr).symm.trans (of_decide_eq_true hs))
  · rcases h with hcols | hsame
    · exact of_decide_eq_false hp hcols.symm
    · have hnone : s.flexTransactionId = none := hsame.2.2.trans hid
      simpa [hnone] using hsame.1
  · have hkey : r.clash s := by
      have hflex : (tx.enriching r).flexTransactionId = r.flexTransactionId := by
        rw [flexId_enriching, hid, Option.none_or]
      rcases h with hcols | hsame
      · exact .inl hcols
      · exact .inr ⟨hflex ▸ hsame.1, hsame.2.1, hflex ▸ hsame.2.2⟩
    obtain rfl := t.eq_of_clash Transaction.clash_symm hr hs hkey
    exact of_decide_eq_false hp (of_decide_eq_true hpr)

/-- With a Flex id the row of the id is as written; the rows of no id or another stay. -/
theorem of_upsert_flexId (hid : tx.flexTransactionId.isSome)
    (h : upsertTransaction t tx = some t') :
    (∃ s ∈ t'.rows, tx.SameFlexId s ∧ s.ts = tx.ts ∧ s.amount = tx.amount ∧ s.type = tx.type ∧
      s.reportDate = tx.reportDate) ∧
    ∀ s ∈ t.rows, ¬ tx.SameFlexId s → s ∈ t'.rows := by
  rw [upsertTransaction, if_pos hid] at h
  refine ⟨?_, fun s hs hp => (Sql.Store.mem_of_upsert? h).2 (.inl ⟨hs, decide_eq_false hp⟩)⟩
  by_cases hany : ∃ r ∈ t.rows, tx.SameFlexId r
  · obtain ⟨r, hr, hpr⟩ := hany
    refine ⟨tx.replacing r, (Sql.Store.mem_of_upsert? h).2
      (.inr (.inl ⟨r, hr, decide_eq_true hpr, rfl⟩)), ⟨hid, hpr.2.1, ?_⟩, rfl, rfl, rfl, rfl⟩
    obtain ⟨x, hx⟩ := Option.isSome_iff_exists.1 hid
    show _ = tx.flexTransactionId.or r.flexTransactionId
    rw [hx]
    rfl
  · refine ⟨tx, (Sql.Store.mem_of_upsert? h).2 (.inr (.inr ⟨fun s hs => ?_, rfl⟩)),
      ⟨hid, rfl, rfl⟩, rfl, rfl, rfl, rfl⟩
    exact decide_eq_false fun hp => hany ⟨s, hs, hp⟩

/-- Without a Flex id the row of the columns is there, and every row keeps its id and columns. -/
theorem of_upsert_plain (hid : tx.flexTransactionId = none) (hdate : tx.reportDate.isSome)
    (h : upsertTransaction t tx = some t') :
    (∃ s ∈ t'.rows, tx.SameColumns s ∧
      ((∀ r ∈ t.rows, ¬ tx.SameColumns r) ∧ s = tx ∨
        ∃ r ∈ t.rows, tx.SameColumns r ∧ s = tx.enriching r)) ∧
    ∀ s ∈ t.rows, s ∈ t'.rows ∨ tx.SameColumns s ∧ tx.enriching s ∈ t'.rows := by
  rw [upsertTransaction, if_neg (by simp [hid])] at h
  constructor
  · by_cases hany : ∃ r ∈ t.rows, tx.SameColumns r
    · obtain ⟨r, hr, hpr⟩ := hany
      exact ⟨tx.enriching r, (Sql.Store.mem_of_upsert? h).2
        (.inr (.inl ⟨r, hr, decide_eq_true hpr, rfl⟩)), hpr, .inr ⟨r, hr, hpr, rfl⟩⟩
    · have hfree : ∀ r ∈ t.rows, ¬ tx.SameColumns r := fun r hr hp => hany ⟨r, hr, hp⟩
      exact ⟨tx, (Sql.Store.mem_of_upsert? h).2
        (.inr (.inr ⟨fun s hs => decide_eq_false (hfree s hs), rfl⟩)),
        ⟨hdate, rfl, rfl, rfl, rfl, rfl⟩, .inl ⟨hfree, rfl⟩⟩
  · intro s hs
    by_cases hp : tx.SameColumns s
    · exact .inr ⟨hp, (Sql.Store.mem_of_upsert? h).2
        (.inr (.inl ⟨s, hs, decide_eq_true hp, rfl⟩))⟩
    · exact .inl ((Sql.Store.mem_of_upsert? h).2 (.inl ⟨hs, decide_eq_false hp⟩))

/-- A statement fails exactly when it carries a Flex id and a row that is not of the id has its
five columns. -/
theorem upsertTransaction_eq_none_iff (hdate : tx.reportDate.isSome) :
    upsertTransaction t tx = none ↔ tx.flexTransactionId.isSome ∧ ¬ OwnColumns t tx := by
  by_cases hid : tx.flexTransactionId.isSome
  · refine ⟨fun hnone => ⟨hid, fun hown => ?_⟩, fun ⟨_, hown⟩ => ?_⟩
    · obtain ⟨t', ht'⟩ := exists_upsert_flexId hid hown
      rw [upsertTransaction, if_pos hid, ht'] at hnone
      cases hnone
    · by_contra hsome
      obtain ⟨t', ht'⟩ := Option.ne_none_iff_exists'.1 hsome
      obtain ⟨⟨r, hr, hrid, hts, hamount, htype, hreport⟩, hstay⟩ := of_upsert_flexId hid ht'
      refine hown fun s hs hcols => ?_
      by_cases hp : tx.SameFlexId s
      · exact hp.2.2.symm
      · -- the row that has the columns stays, and is the one that was written
        have hrow : r.SameColumns s := ⟨hreport ▸ hdate, hrid.2.1.symm.trans hcols.2.1,
          hts.trans hcols.2.2.1, hamount.trans hcols.2.2.2.1, htype.trans hcols.2.2.2.2.1,
          hreport.trans hcols.2.2.2.2.2⟩
        have heq := t'.eq_of_clash Transaction.clash_symm hr (hstay s hs hp) (.inl hrow)
        exact heq ▸ hrid.2.2.symm
  · refine iff_of_false (fun hnone => ?_) fun h => hid h.1
    have hnoid : tx.flexTransactionId = none := by simpa using hid
    obtain ⟨t', ht'⟩ := exists_upsert_plain (t := t) hnoid
    rw [upsertTransaction, if_neg hid, ht'] at hnone
    cases hnone

theorem exists_upsertTransaction {before : List Transaction} (hdate : tx.reportDate.isSome)
    (happart : KeptApart before t tx) : ∃ t', upsertTransaction t tx = some t' := by
  refine Option.ne_none_iff_exists'.1 fun hnone => ?_
  obtain ⟨hid, hnot⟩ := (upsertTransaction_eq_none_iff hdate).1 hnone
  exact hnot (happart hid).1

/-- What an earlier transaction with a Flex id left is there after a statement of no row of it. -/
theorem kept_byId {x : Transaction} (hdate : tx.reportDate.isSome)
    (hid : x.flexTransactionId.isSome) (ht' : upsertTransaction t tx = some t')
    (hs : s ∈ t.rows) (hsid : x.SameFlexId s)
    (hother : ¬ x.SameFlexId tx) :
    ∃ s' ∈ t'.rows, x.SameFlexId s' ∧ s'.ts = s.ts ∧ s'.amount = s.amount ∧ s'.type = s.type ∧
      s'.reportDate = s.reportDate := by
  by_cases htxid : tx.flexTransactionId.isSome
  · have hs' := (of_upsert_flexId htxid ht').2 s hs fun hp => hother (hsid.trans hp.symm)
    exact ⟨s, hs', hsid, rfl, rfl, rfl, rfl⟩
  · have hnoid : tx.flexTransactionId = none := by simpa using htxid
    rcases (of_upsert_plain hnoid hdate ht').2 s hs with hs' | ⟨-, hs'⟩
    · exact ⟨s, hs', hsid, rfl, rfl, rfl, rfl⟩
    · have hflex : (tx.enriching s).flexTransactionId = s.flexTransactionId := by
        rw [flexId_enriching, hnoid, Option.none_or]
      exact ⟨tx.enriching s, hs', ⟨hid, hsid.2.1, hsid.2.2.trans hflex.symm⟩, rfl, rfl, rfl, rfl⟩

/-- The five columns of an earlier transaction without a Flex id are there after a statement. -/
theorem kept_plain {before : List Transaction} {x : Transaction} (hdate : tx.reportDate.isSome)
    (happart : KeptApart before t tx) (ht' : upsertTransaction t tx = some t') (hx : x ∈ before)
    (hnone : x.flexTransactionId = none) (hs : s ∈ t.rows) (hcols : x.SameColumns s) :
    ∃ s' ∈ t'.rows, x.SameColumns s' := by
  by_cases htxid : tx.flexTransactionId.isSome
  · obtain ⟨⟨r, hr, hrid, hts, hamount, htype, hreport⟩, hstay⟩ := of_upsert_flexId htxid ht'
    by_cases hp : tx.SameFlexId s
    · -- the row is replaced, by one that has these columns too
      have hmoved : x.SameColumns tx := (happart htxid).2 s hs hp x hx hnone hcols
      exact ⟨r, hr, hmoved.trans
        ⟨hdate, hrid.2.1, hts.symm, hamount.symm, htype.symm, hreport.symm⟩⟩
    · exact ⟨s, hstay s hs hp, hcols⟩
  · have hnoid : tx.flexTransactionId = none := by simpa using htxid
    rcases (of_upsert_plain hnoid hdate ht').2 s hs with hs' | ⟨-, hs'⟩
    · exact ⟨s, hs', hcols⟩
    · exact ⟨tx.enriching s, hs', hcols⟩

/-- A statement keeps what was imported before and adds its own. -/
theorem Imported.upsertTransaction {history : List Transaction} (h : Imported history t)
    (hdate : tx.reportDate.isSome) (happart : KeptApart history t tx)
    (ht' : Portfolio.upsertTransaction t tx = some t') : Imported (history ++ [tx]) t' := by
  constructor
  · intro pre x post hsplit hid hlast
    have hrow : ∃ s ∈ t'.rows, x.SameFlexId s ∧ s.ts = x.ts ∧ s.amount = x.amount ∧
        s.type = x.type ∧ s.reportDate = x.reportDate := by
      rcases List.eq_nil_or_concat post with rfl | ⟨post, e, rfl⟩
      · obtain ⟨-, he⟩ := List.append_inj' hsplit rfl
        obtain rfl : tx = x := by simpa using he
        exact (of_upsert_flexId hid ht').1
      · have hsplit' : history ++ [tx] = (pre ++ x :: post) ++ [e] := by simpa using hsplit
        obtain ⟨hhist, he⟩ := List.append_inj' hsplit' rfl
        obtain rfl : tx = e := by simpa using he
        obtain ⟨s, hs, hsid, ⟨hts, hamount, htype, hreport⟩, -⟩ :=
          h.byId pre x post hhist hid fun later hlater => hlast later (by simp [hlater])
        obtain ⟨s', hs', hsid', hts', hamount', htype', hreport'⟩ :=
          kept_byId hdate hid ht' hs hsid (hlast tx (by simp))
        exact ⟨s', hs', hsid', hts'.trans hts, hamount'.trans hamount, htype'.trans htype,
          hreport'.trans hreport⟩
    obtain ⟨s, hs, hsid, hcols⟩ := hrow
    exact ⟨s, hs, hsid, hcols, fun s' hs' h' =>
      t'.eq_of_clash Transaction.clash_symm hs' hs (.inr (h'.symm.trans hsid))⟩
  · intro x hx hnone
    have hrow : ∃ s ∈ t'.rows, x.SameColumns s := by
      rcases List.mem_append.1 hx with hx | hx
      · obtain ⟨s, hs, hcols, -⟩ := h.plain x hx hnone
        exact kept_plain hdate happart ht' hx hnone hs hcols
      · obtain rfl := List.mem_singleton.1 hx
        obtain ⟨⟨s, hs, hcols, -⟩, -⟩ := of_upsert_plain hnone hdate ht'
        exact ⟨s, hs, hcols⟩
    obtain ⟨s, hs, hcols⟩ := hrow
    exact ⟨s, hs, hcols, fun s' hs' h' =>
      t'.eq_of_clash Transaction.clash_symm hs' hs (.inl (h'.symm.trans hcols))⟩

/-! ## Runs of imports -/

section Runs

variable {dateOf : String → Option Date}

theorem reportDate_of_transaction {r : CashRow} {tx : Transaction}
    (h : r.transaction dateOf = some tx) : tx.reportDate.isSome := by
  unfold CashRow.transaction at h
  split at h
  · cases h
  · obtain rfl := Option.some.inj h
    rfl
  · cases h

/-- A batch of valid rows is the statements of its transactions. -/
theorem upsertAccountTransactions_eq {rows : List CashRow} (hvalid : ∀ r ∈ rows, r.Valid dateOf)
    (t : TransactionTable) :
    (upsertAccountTransactions dateOf t rows).map Prod.fst =
      (transactionsOf dateOf rows).foldlM upsertTransaction t := by
  unfold upsertAccountTransactions
  generalize ((0 : ℕ), (0 : ℕ)) = counts
  induction rows generalizing t counts with
  | nil => rfl
  | cons r rows ih =>
    obtain ⟨hwritten, hsome⟩ := hvalid r List.mem_cons_self
    obtain ⟨tx, htx⟩ := Option.isSome_iff_exists.1 hsome
    have htxs : transactionsOf dateOf (r :: rows) = tx :: transactionsOf dateOf rows := by
      rw [transactionsOf, List.filterMap_cons, htx]
      rfl
    rw [htxs, List.foldlM_cons, List.foldlM_cons, importCashRow, if_neg hwritten, htx]
    cases hstep : upsertTransaction t tx with
    | none => simp [hstep]
    | some t' =>
      have ih := ih (fun r' hr' => hvalid r' (List.mem_cons_of_mem _ hr')) t'
        (counts.1 + 1, counts.2)
      simpa [hstep] using ih

theorem importAll_eq {batches : List (List CashRow)}
    (hvalid : ∀ rows ∈ batches, ∀ r ∈ rows, r.Valid dateOf) (t : TransactionTable) :
    importAll dateOf t batches =
      (transactionsOf dateOf batches.flatten).foldlM upsertTransaction t := by
  unfold importAll
  induction batches generalizing t with
  | nil => rfl
  | cons rows batches ih =>
    have htxs : transactionsOf dateOf (rows :: batches).flatten =
        transactionsOf dateOf rows ++ transactionsOf dateOf batches.flatten := by
      rw [List.flatten_cons, transactionsOf, List.filterMap_append]
      rfl
    rw [List.foldlM_cons, htxs, List.foldlM_append,
      upsertAccountTransactions_eq (hvalid rows List.mem_cons_self)]
    exact congrArg _ (funext fun t' => ih (fun b hb => hvalid b (List.mem_cons_of_mem _ hb)) t')

/-- Statements of transactions that are kept apart succeed and keep what was imported. -/
theorem imported_of_keptApart {start : TransactionTable} {txs : List Transaction}
    (hdates : ∀ tx ∈ txs, tx.reportDate.isSome)
    (happart : Runs.Along transactionStep start KeptApart txs) :
    txs.foldlM upsertTransaction start = some (Runs.run transactionStep start txs) ∧
      Imported txs (Runs.run transactionStep start txs) := by
  induction txs using List.reverseRecOn with
  | nil => exact ⟨rfl, ⟨fun pre tx post h => by simp at h, fun tx h => by cases h⟩⟩
  | append_singleton txs tx ih =>
    obtain ⟨hbefore, hlast⟩ := (Runs.along_snoc txs tx).1 happart
    obtain ⟨hfold, himported⟩ := ih (fun x hx => hdates x (by simp [hx])) hbefore
    have hdate := hdates tx (by simp)
    obtain ⟨t', ht'⟩ := exists_upsertTransaction hdate hlast
    have hrun : Runs.run transactionStep start (txs ++ [tx]) = t' := by
      rw [Runs.run_snoc, transactionStep, ht']
      rfl
    rw [hrun, List.foldlM_append, hfold]
    refine ⟨?_, himported.upsertTransaction hdate hlast ht'⟩
    simp [ht']

/-- Imports of valid rows succeed and keep what they should, after every import, when no Flex id
meets the columns of another row or moves those of a row without one. -/
theorem importsKept_of_keptApart {start : TransactionTable} {batches : List (List CashRow)}
    (hvalid : ∀ rows ∈ batches, ∀ r ∈ rows, r.Valid dateOf)
    (happart : Runs.Along transactionStep start KeptApart
      (transactionsOf dateOf batches.flatten)) :
    ∀ pre, pre <+: batches → ImportsKept dateOf start pre := by
  rintro pre ⟨post, rfl⟩
  have htxs : transactionsOf dateOf (pre ++ post).flatten =
      transactionsOf dateOf pre.flatten ++ transactionsOf dateOf post.flatten := by
    rw [List.flatten_append, transactionsOf, List.filterMap_append]
    rfl
  rw [htxs] at happart
  have hdates : ∀ tx ∈ transactionsOf dateOf pre.flatten, tx.reportDate.isSome := by
    intro tx htx
    obtain ⟨r, -, hr⟩ := List.mem_filterMap.1 htx
    exact reportDate_of_transaction hr
  obtain ⟨hfold, himported⟩ := imported_of_keptApart hdates happart.of_append
  refine ⟨_, ?_, himported⟩
  rw [importAll_eq fun rows hrows => hvalid rows (List.mem_append_left _ hrows), hfold]

end Runs

/-- A dividend as the Flex list has it, under an id and a date. -/
def dividendRow (id : Option String) (amount : ℚ) (reportDate : String) : CashRow where
  accountId := some "U1"
  ts := some 1789966800
  amount := some (.fin amount)
  type := some "Dividends"
  currency := some "USD"
  description := none
  flexTransactionId := id
  flexType := none
  flexCode := none
  assetCategory := none
  assetSubcategory := none
  symbol := some "ACME"
  conid := none
  securityId := none
  securityIdType := none
  listingExchange := none
  reportDate := some reportDate
  availableForTradingDate := none
  fxRateToBase := none
  rawExtra := none

/-- A dividend, then the same with a later date beside one without an id, twice. -/
def redatedDividends : List (List CashRow) :=
  let again := [dividendRow (some "880001") 10 "2026-09-22", dividendRow none 10 "2026-09-23"]
  [[dividendRow (some "880001") 10 "2026-09-21"], again, again]

theorem importsKept_redatedDividends : ImportsKept Date.parseIso .empty redatedDividends :=
  importsKept_of_keptApart (by decide +kernel) (by decide +kernel) redatedDividends
    (List.prefix_refl _)

/-- Two dividends that differ in nothing but the Flex id. -/
def twinDividends : List (List CashRow) :=
  [[dividendRow (some "880001") 10 "2026-09-21", dividendRow (some "880002") 10 "2026-09-21"]]

/-- The second of two transactions with the same five columns makes the import fail. -/
theorem not_importsKept_twinDividends : ¬ ImportsKept Date.parseIso .empty twinDividends := by
  rintro ⟨t, himport, -⟩
  have hfails : importAll Date.parseIso .empty twinDividends = none := by decide +kernel
  rw [hfails] at himport
  cases himport

/-- So does a transaction whose row came before without the id. -/
example : importAll Date.parseIso .empty
    [[dividendRow none 10 "2026-09-21"], [dividendRow (some "880001") 10 "2026-09-21"]] = none := by
  decide +kernel

end Portfolio
