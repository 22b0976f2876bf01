import BifrostTrade.Lib.Runs
import BifrostTrade.Portfolio.SnapshotCapture

/-!
# Runs of syncs and captures

The broker sync and the capture in any order on the same tables.  A capture writes the accounts
whose row was updated at or after the session's close (`mem_writtenAccounts`), and the sync moves
that time before it knows what else it read.  `capturesOnlyRead` says for which syncs the rows of a
session still rest on what was read after its close.
-/

namespace Portfolio.Snapshot

open Py Persistence

/-- The tables that sync and capture share. -/
structure Db where
  brokerage : Brokerage
  snapshots : Snapshots

/-- All tables empty. -/
def Db.empty : Db where
  brokerage := ⟨.empty, .empty⟩
  snapshots := ⟨.empty, .empty⟩

/-- A call of the sync in a transaction that began at `now`, or a run of the capture. -/
inductive SnapshotEvent where
  | sync (now : Instant) (accountsList : Option (List AccountItem))
  | capture (snapshotDate : Date) (attribution : List AttributionRow)

/-- A sync or a capture that raises writes nothing. -/
def snapshotStep (cal : MarketCalendar) (db : Db) : SnapshotEvent → Db
  | .sync now accountsList =>
      { db with
        brokerage := (syncAccountsSnapshotToTables now db.brokerage accountsList).getD
          db.brokerage }
  | .capture snapshotDate attribution =>
      match capture cal db.brokerage db.snapshots snapshotDate attribution with
      | .ok (snapshots, _) => { db with snapshots }
      | .error _ => db

/-- The accounts of the rows a capture adds to its two tables. -/
def writtenAccounts (cal : MarketCalendar) (db : Db) (snapshotDate : Date)
    (attribution : List AttributionRow) : List String :=
  let after := snapshotStep cal db (.capture snapshotDate attribution)
  ((after.snapshots.accountNavDaily.rows.filter fun r =>
      r ∉ db.snapshots.accountNavDaily.rows).map NavRow.accountId) ++
    (after.snapshots.positionSnapshotDaily.rows.filter fun r =>
      r ∉ db.snapshots.positionSnapshotDaily.rows).map fun r => r.row.accountId

/-- Whether an item of this account, read by some sync at or after `since`, had what is asked. -/
def readSince (read : AccountItem → Bool) (evs : List SnapshotEvent) (account : String)
    (since : Instant) : Bool :=
  evs.any fun
    | .sync now accountsList => since ≤ now ∧ (accountsList.getD []).any fun acc =>
        acc.validAccountId = some account ∧ read acc
    | .capture _ _ => false

/-- Both the account's net liquidation value and its position list were read. -/
def bothReadSince (evs : List SnapshotEvent) (account : String) (since : Instant) : Prop :=
  readSince AccountItem.navRead evs account since = true ∧
    readSince AccountItem.positionsRead evs account since = true

/-- What a capture of a session writes rests on reads at or after the session's close. -/
def CapturesOnlyRead (cal : MarketCalendar) (pre : List SnapshotEvent) (db : Db) :
    SnapshotEvent → Prop
  | .capture d attribution =>
      ∀ a ∈ writtenAccounts cal db d attribution, bothReadSince pre a (cal.sessionCloseAt d)
  | .sync _ _ => True

/-- With a call of the sync past the close of a session, the accounts it updates have both been
read since that close, by this call or an earlier one. -/
def SyncCompletesReads (cal : MarketCalendar) (pre : List SnapshotEvent) (_ : Db) :
    SnapshotEvent → Prop
  | .sync now accountsList =>
      ∀ acc ∈ accountsList.getD [], ∀ a, acc.validAccountId = some a →
        ∀ d, cal.sessionCloseAt d ≤ now →
          bothReadSince (pre ++ [.sync now accountsList]) a (cal.sessionCloseAt d)
  | .capture _ _ => True

/-! ## What a capture writes -/

theorem mem_pendingAccounts {closeAt : Instant} {captured : List String} {b : Brokerage}
    {a : String} {row : AccountRow} (h : (a, row) ∈ pendingAccounts closeAt captured b) :
    row ∈ b.account.rows ∧ a = trimSpaces row.accountId ∧ isFresh closeAt row = true := by
  have h := mem_of_mem_dict h
  simp only [accounts, List.mem_filter, List.mem_map, decide_eq_true_eq] at h
  obtain ⟨⟨⟨row', hrow, heq⟩, -⟩, -, hfresh⟩ := h
  obtain ⟨rfl, rfl⟩ := Prod.mk.inj heq
  exact ⟨hrow, rfl, hfresh⟩

/-- Every row `split_rows` returns is of an account of the attribution. -/
theorem accountId_of_mem_splitRows {attribution : List AttributionRow} {r : SplitRow}
    (h : r ∈ splitRows id attribution) : ∃ x ∈ attribution, x.position.1 = r.accountId := by
  obtain ⟨g, hg, hr⟩ := List.mem_flatMap.1 h
  obtain ⟨hkey, -⟩ := mem_groupBy.1 hg
  obtain ⟨x, hx, hxg⟩ := List.mem_map.1 hkey
  refine ⟨x, List.mem_of_mem_filter hx, ?_⟩
  rw [hxg]
  unfold positionRows at hr
  split at hr
  · simp at hr
  · obtain ⟨s, -, rfl⟩ := List.mem_map.1 hr
    rfl

/-- A capture writes rows of fresh accounts only. -/
theorem mem_writtenAccounts {cal : MarketCalendar} {db : Db} {d : Date}
    {attribution : List AttributionRow} {a : String}
    (h : a ∈ writtenAccounts cal db d attribution) :
    ∃ row ∈ db.brokerage.account.rows, a = trimSpaces row.accountId ∧
      isFresh (cal.sessionCloseAt d) row = true := by
  have hpending : ∀ {b}, b ∈ (pendingAccounts (cal.sessionCloseAt d)
      (capturedAccounts db.snapshots d) db.brokerage).map Prod.fst →
      ∃ row ∈ db.brokerage.account.rows, b = trimSpaces row.accountId ∧
        isFresh (cal.sessionCloseAt d) row = true := by
    intro b hb
    obtain ⟨⟨b', row⟩, hrow, rfl⟩ := List.mem_map.1 hb
    exact ⟨row, mem_pendingAccounts hrow⟩
  simp only [writtenAccounts, snapshotStep, capture] at h
  split at h
  case h_2 => simp at h
  case h_1 s' result hcapture =>
    split_ifs at hcapture with hnone herr
    · -- nothing is pending and the tables are as they were
      obtain ⟨rfl, -⟩ := Prod.mk.inj (Except.ok.inj hcapture)
      simp at h
    · obtain ⟨rfl, -⟩ := Prod.mk.inj (Except.ok.inj hcapture)
      apply hpending
      rcases List.mem_append.1 h with h | h
      · obtain ⟨r, hr, rfl⟩ := List.mem_map.1 h
        obtain ⟨hr, hnew⟩ := List.mem_filter.1 hr
        rcases Sql.Table.mem_of_mem_insertAllOrIgnore hr with hr | hr
        · exact absurd hr (by simpa using hnew)
        · obtain ⟨p, hp, rfl⟩ := List.mem_map.1 hr
          exact List.mem_map_of_mem (mem_sortedBy.1 hp)
      · obtain ⟨r, hr, rfl⟩ := List.mem_map.1 h
        obtain ⟨hr, hnew⟩ := List.mem_filter.1 hr
        rcases Sql.Table.mem_of_mem_insertAllOrIgnore hr with hr | hr
        · exact absurd hr (by simpa using hnew)
        · obtain ⟨row, hrow, rfl⟩ := List.mem_map.1 hr
          obtain ⟨x, hx, hacct⟩ := accountId_of_mem_splitRows hrow
          -- the attribution was cut down to the accounts to be written
          have hx := (List.mem_filter.1 hx).2
          obtain ⟨p, hp, hpa⟩ := List.any_eq_true.1 hx
          have hpa : p.1 = row.accountId := (of_decide_eq_true hpa).trans hacct
          exact hpa ▸ List.mem_map_of_mem hp

/-! ## What a sync updates -/

theorem mem_upsertAccount {now : Instant} {a : String} {s : SummaryFloats}
    {t : Sql.Table AccountRow.accountId} {r : AccountRow}
    (h : r ∈ (upsertAccount now a s t).rows) :
    r ∈ t.rows ∨ r.accountId = a ∧ r.updatedAt = some now := by
  unfold upsertAccount at h
  rcases Sql.Table.mem_upsert.1 h with ⟨hr, -⟩ | ⟨old, -, hold, rfl⟩ | ⟨-, rfl⟩
  · exact .inl hr
  · exact .inr ⟨hold, rfl⟩
  · exact .inr ⟨rfl, rfl⟩

theorem mem_writeItem {now : Instant} {b : Brokerage} {acc : AccountItem} {r : AccountRow}
    (h : r ∈ (writeItem now b acc).account.rows) :
    r ∈ b.account.rows ∨ acc.validAccountId = some r.accountId ∧ r.updatedAt = some now := by
  unfold writeItem writeAccount at h
  cases ha : acc.validAccountId with
  | none =>
    rw [ha] at h
    exact .inl h
  | some a =>
    rw [ha] at h
    -- the account's row is written the same whether its positions are or not
    have hrow : r ∈ (upsertAccount now a (parseSummaryFloats (acc.summary.getD []))
        b.account).rows := by
      dsimp only at h
      split_ifs at h
      · exact h
      · exact h
    rcases mem_upsertAccount hrow with hr | ⟨rfl, htime⟩
    · exact .inl hr
    · exact .inr ⟨rfl, htime⟩

/-- An account's row after a sync is the one before it, or carries the time of the sync. -/
theorem mem_sync {now : Instant} {b : Brokerage} {l : Option (List AccountItem)}
    {r : AccountRow} (h : r ∈ ((syncAccountsSnapshotToTables now b l).getD b).account.rows) :
    r ∈ b.account.rows ∨
      ∃ acc ∈ l.getD [], acc.validAccountId = some r.accountId ∧ r.updatedAt = some now := by
  have hlist : syncAccountsSnapshotToTables now b l =
      syncAccountsSnapshotToTables now b (some (l.getD [])) := rfl
  rw [hlist] at h
  generalize l.getD [] = items at h ⊢
  cases hsync : syncAccountsSnapshotToTables now b (some items) with
  | none =>
    rw [hsync] at h
    exact .inl h
  | some b' =>
    rw [hsync, Option.getD_some] at h
    obtain ⟨-, rfl⟩ := syncAccounts_eq_some_iff.1 hsync
    clear hsync hlist
    induction items generalizing b with
    | nil => exact .inl h
    | cons acc items ih =>
      rw [List.foldl_cons] at h
      rcases ih h with hr | ⟨acc', hacc', hr⟩
      · rcases mem_writeItem hr with hr | hr
        · exact .inl hr
        · exact .inr ⟨acc, List.mem_cons_self .., hr⟩
      · exact .inr ⟨acc', List.mem_cons_of_mem _ hacc', hr⟩

/-! ## Account ids -/

theorem isIbAccountId_of_valid {acc : AccountItem} {a : String}
    (h : acc.validAccountId = some a) : isIbAccountId a = true := by
  unfold AccountItem.validAccountId at h
  dsimp only at h
  split_ifs at h with hvalid
  exact Option.some.inj h ▸ hvalid

theorem space_not_mem_of_isIbAccountId {s : String} (h : isIbAccountId s = true) :
    ' ' ∉ s.toList := by
  intro hmem
  simp only [isIbAccountId] at h
  -- the newline that may end the text is not a space
  have hmem : ' ' ∈ (if s.toList.getLast? = some '\n' then s.toList.dropLast else s.toList) := by
    split_ifs with hlast
    · obtain ⟨cs, hcs⟩ := List.getLast?_eq_some_iff.1 hlast
      rw [hcs] at hmem ⊢
      simpa using hmem
    · exact hmem
  have hletter : ¬ ('A' ≤ ' ' ∧ ' ' ≤ 'Z') := by decide
  have hdigit : isDecimal ' ' = false := by decide
  split at h
  · rename_i a b cs heq
    rw [heq] at hmem
    simp only [decide_eq_true_eq, Bool.decide_and, Bool.and_eq_true, Bool.decide_or,
      Bool.or_eq_true, List.all_eq_true] at h
    obtain ⟨ha, h⟩ := h
    rcases List.mem_cons.1 hmem with rfl | hmem
    · exact hletter ha
    · rcases h with ⟨-, h⟩ | ⟨hb, -, h⟩
      · exact absurd (h ' ' hmem) (by simp [hdigit])
      · rcases List.mem_cons.1 hmem with rfl | hmem
        · exact hletter hb
        · exact absurd (h ' ' hmem) (by simp [hdigit])
  · exact absurd h (by simp)

theorem dropWhile_space {cs : List Char} (h : ' ' ∉ cs) : cs.dropWhile (· = ' ') = cs := by
  cases cs with
  | nil => rfl
  | cons c cs =>
    apply List.dropWhile_cons_of_neg
    intro hspace
    apply h
    rw [← of_decide_eq_true hspace]
    exact List.mem_cons_self ..

/-- The ids the sync writes are as they are read back. -/
theorem trimSpaces_of_isIbAccountId {s : String} (h : isIbAccountId s = true) :
    trimSpaces s = s := by
  have hmem := space_not_mem_of_isIbAccountId h
  rw [trimSpaces, dropWhile_space hmem, dropWhile_space (by simpa using hmem), List.reverse_reverse,
    String.ofList_toList]

/-! ## Runs -/

theorem readSince_append {read : AccountItem → Bool} {evs post : List SnapshotEvent} {a : String}
    {c : Instant} (h : readSince read evs a c = true) :
    readSince read (evs ++ post) a c = true := by
  rw [readSince, List.any_append]
  exact Bool.or_eq_true_iff.2 (.inl h)

theorem bothReadSince_append {evs post : List SnapshotEvent} {a : String} {c : Instant}
    (h : bothReadSince evs a c) : bothReadSince (evs ++ post) a c :=
  ⟨readSince_append h.1, readSince_append h.2⟩

/-- The accounts that are fresh for a session have been read since its close. -/
structure FreshIsRead (cal : MarketCalendar) (evs : List SnapshotEvent) (db : Db) : Prop where
  validId : ∀ r ∈ db.brokerage.account.rows, isIbAccountId r.accountId = true
  read : ∀ r ∈ db.brokerage.account.rows, ∀ d, isFresh (cal.sessionCloseAt d) r = true →
    bothReadSince evs r.accountId (cal.sessionCloseAt d)

theorem FreshIsRead.empty (cal : MarketCalendar) : FreshIsRead cal [] Db.empty where
  validId := by simp [Db.empty]
  read := by simp [Db.empty]

theorem snapshotStep_capture_brokerage (cal : MarketCalendar) (db : Db) (d : Date)
    (attribution : List AttributionRow) :
    (snapshotStep cal db (.capture d attribution)).brokerage = db.brokerage := by
  unfold snapshotStep
  split <;> rename_i heq
  · cases heq
  · cases heq
    split <;> rfl

theorem FreshIsRead.step {cal : MarketCalendar} {pre : List SnapshotEvent} {db : Db}
    {e : SnapshotEvent} (hinv : FreshIsRead cal pre db) (he : SyncCompletesReads cal pre db e) :
    FreshIsRead cal (pre ++ [e]) (snapshotStep cal db e) := by
  cases e with
  | capture d attribution =>
    constructor
    · rw [snapshotStep_capture_brokerage]
      exact hinv.validId
    · rw [snapshotStep_capture_brokerage]
      intro r hr d' hfresh
      exact bothReadSince_append (hinv.read r hr d' hfresh)
  | sync now l =>
    constructor
    · intro r hr
      rcases mem_sync hr with hr | ⟨acc, -, hacc, -⟩
      · exact hinv.validId r hr
      · exact isIbAccountId_of_valid hacc
    · intro r hr d hfresh
      rcases mem_sync hr with hr | ⟨acc, hmem, hacc, htime⟩
      · exact bothReadSince_append (hinv.read r hr d hfresh)
      · -- the row carries the time of this sync, which is past the close
        apply he acc hmem _ hacc d
        simpa [isFresh, htime] using hfresh

/-- In a run whose syncs complete the reads of the accounts they update, a captured session only
contains accounts read since its close. -/
theorem capturesOnlyRead (cal : MarketCalendar) (evs : List SnapshotEvent)
    (h : Runs.Along (snapshotStep cal) Db.empty (SyncCompletesReads cal) evs) :
    Runs.Along (snapshotStep cal) Db.empty (CapturesOnlyRead cal) evs := by
  refine Runs.along_of_invariant (FreshIsRead cal) (FreshIsRead.empty cal)
    (fun pre e he hinv => hinv.step he) (fun pre e hinv => ?_) h
  cases e with
  | sync now l => trivial
  | capture d attribution =>
    intro a ha
    obtain ⟨row, hrow, rfl, hfresh⟩ := mem_writtenAccounts ha
    rw [trimSpaces_of_isIbAccountId (hinv.validId row hrow)]
    exact hinv.read row hrow d hfresh

/-! ## A sync after the close that read nothing -/

/-- The first of July 2026. -/
def sampleSession : Date := (Date.ofYmd 2026 7 1).getD Date.epoch

/-- New York summer time, no holidays. -/
def sampleCalendar : MarketCalendar where
  newYork1600 d := ((d.toOrdinal : ℤ) - Date.epoch.toOrdinal) * 86400000000 + 72000000000
  holidays := some []

/-- A full read of one account that holds ten shares. -/
def sampleFullRead : AccountItem where
  accountId := some "U1"
  account := none
  summary := some [("NetLiquidation", .text "1000.5")]
  positions := .list [some
    { symbol := some "AAPL", secType := some "STK", sec_type := none, exchange := none
      currency := some "USD", position := .int 10, avgCost := .float (.fin 100)
      avg_cost := .null, lastTradeDateOrContractMonth := none, expiry := none, strike := .null
      right := none }]
  positionsOk := some true

/-- A read of the same account with neither summary nor positions. -/
def sampleFailedRead : AccountItem where
  accountId := some "U1"
  account := none
  summary := none
  positions := .list []
  positionsOk := some false

/-- The attribution of the ten shares to no trade. -/
def sampleAttribution : AttributionRow where
  accountId := some "U1"
  contractKey := some "AAPL|STK|||"
  tradeId := none
  symbol := some "AAPL"
  secType := some "STK"
  expiry := none
  strike := .none
  optionRight := none
  positionQty := .number (.fin 10)
  openQtyEst := .number (.fin 10)
  avgCost := .number (.fin 100)
  markSource := none
  priceLast := .none
  priceMid := .none

/-- An hour before the close and a second after it. -/
def sampleBeforeClose : Instant := sampleCalendar.sessionCloseAt sampleSession - 3600000000

/-- A second after the close. -/
def sampleAfterClose : Instant := sampleCalendar.sessionCloseAt sampleSession + 1000000

/-- A full read after the close, then the capture. -/
theorem capturesOnlyRead_fullRead :
    Runs.Along (snapshotStep sampleCalendar) Db.empty (CapturesOnlyRead sampleCalendar)
        [.sync sampleAfterClose (some [sampleFullRead]),
          .capture sampleSession [sampleAttribution]] ∧
      "U1" ∈ writtenAccounts sampleCalendar
        (snapshotStep sampleCalendar Db.empty (.sync sampleAfterClose (some [sampleFullRead])))
        sampleSession [sampleAttribution] := by
  refine ⟨capturesOnlyRead _ _ ?_, by decide +kernel⟩
  refine (Runs.along_snoc [_] _).2 ⟨(Runs.along_snoc [] _).2 ⟨Runs.along_nil, ?_⟩,
    trivial⟩
  intro acc hacc a ha d hclose
  obtain rfl : acc = sampleFullRead := by simpa using hacc
  have hnav : sampleFullRead.navRead = true := by decide +kernel
  have hpositions : sampleFullRead.positionsRead = true := by decide
  constructor
  · simp [readSince, hclose, ha, hnav]
  · simp [readSince, hclose, ha, hpositions]

/-- A full read before the close, a failed one after it, then the capture: the rows hold what was
read before the close. -/
theorem not_capturesOnlyRead_failedRead :
    ¬ Runs.Along (snapshotStep sampleCalendar) Db.empty (CapturesOnlyRead sampleCalendar)
        [.sync sampleBeforeClose (some [sampleFullRead]),
          .sync sampleAfterClose (some [sampleFailedRead]),
          .capture sampleSession [sampleAttribution]] := by
  intro h
  have hcapture := h [.sync sampleBeforeClose (some [sampleFullRead]),
    .sync sampleAfterClose (some [sampleFailedRead])] _ [] rfl
  have hwritten : "U1" ∈ writtenAccounts sampleCalendar
      (Runs.run (snapshotStep sampleCalendar) Db.empty
        [.sync sampleBeforeClose (some [sampleFullRead]),
          .sync sampleAfterClose (some [sampleFailedRead])])
      sampleSession [sampleAttribution] := by decide +kernel
  have hread := (hcapture "U1" hwritten).1
  exact absurd hread (by decide +kernel)

end Portfolio.Snapshot
