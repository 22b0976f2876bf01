import BifrostTrade.Lib.Runs
import BifrostTrade.Portfolio.ExecutionWritersProof
import BifrostTrade.Portfolio.FillImport

/-!
# Deleting an execution

`delete_one_execution` and `delete_execution_strict` over the two databases they span: the raw
executions and the commissions, and this environment's attribution and option/stock links.  A call
commits the first before the second.  `delete_one_execution` takes the commission along even where
another raw row still carries the execution id.
-/

namespace Portfolio.Deletes

open Py Persistence Runs

/-! ## The databases -/

/-- A link of an option fill and a stock fill. -/
structure Link where
  optionAccountExecutionsId : ℤ
  stockAccountExecutionsId : ℤ

/-- The raw rows and commissions of the golden database, and the trades, attributions and links of
the environment's. -/
structure Db where
  executions : ExecutionDb
  commissions : Sql.Table CommissionRow.execId
  links : List Link

/-- The option/stock links that name an execution. -/
def Db.linksOf (db : Db) (id : ℤ) : ℕ :=
  (db.links.filter fun l =>
    l.optionAccountExecutionsId = id ∨ l.stockAccountExecutionsId = id).length

/-- The tables after the golden database is committed and the other is not. -/
def Db.goldenOnly (db new : Db) : Db where
  executions := { db.executions with raw := new.executions.raw }
  commissions := new.commissions
  links := db.links

/-! ## The writers -/

/-- Whether a raw row carries an execution id. -/
def stillUsed (executions : ExecutionDb) (execId : String) : Bool :=
  [RawTable.tws, .flex, .journal].any fun t =>
    (executions.raw t).rows.any fun s => s.execId = some execId

/-- `delete_one_execution`; `none` is a call that answers false. -/
def deleteOneExecution (db : Db) (id : ℤ) : Option Db :=
  (fillRow db.executions id).map fun r =>
    let execId := r.fillKey.2
    { db with
      executions := (deleteRaw db.executions id r).1
      commissions := if execId = "" then db.commissions
        else db.commissions.delete fun c => c.execId = execId }

/-- `delete_execution_strict`; the splits removed are counted. -/
def deleteExecutionStrict (db : Db) (id : ℤ) : Except WriteError (Db × ℕ) :=
  (Portfolio.deleteExecutionStrict db.executions (db.linksOf id) id).map fun deleted =>
    let execId := ((fillRow db.executions id).map RawRow.fillKey).elim "" Prod.snd
    ({ db with
        executions := deleted.1
        commissions := if execId = "" ∨ stillUsed deleted.1 execId then db.commissions
          else db.commissions.delete fun c => c.execId = execId }, deleted.2)

/-! ## Steps -/

/-- A call of one of the two deletes. -/
inductive Op where
  | deleteOne (id : ℤ)
  | deleteStrict (id : ℤ)

/-- The id the call names. -/
def Op.id : Op → ℤ
  | .deleteOne id => id
  | .deleteStrict id => id

/-- Where a call fails for a reason outside of it. -/
inductive Fault where
  | none
  | beforeCommit
  | atSecondCommit
  deriving DecidableEq

/-- What a call would commit; `none` where it is refused. -/
def attempt (db : Db) : Op → Option Db
  | .deleteOne id => deleteOneExecution db id
  | .deleteStrict id => (deleteExecutionStrict db id).toOption.map Prod.fst

/-- The tables after a call, which may fail before or between its commits. -/
def step (db : Db) (e : Op × Fault) : Db :=
  match e.2, attempt db e.1 with
  | .none, some db' => db'
  | .atSecondCommit, some db' => db.goldenOnly db'
  | _, _ => db

/-! ## What is claimed -/

/-- Whether a raw row is left that satisfies a condition. -/
def Left (db : Db) (p : RawRow → Prop) : Prop := ∃ t, ∃ s ∈ (db.executions.raw t).rows, p s

/-- The same fill: the same account and execution id. -/
def SameFill (r s : RawRow) : Prop := s.accountId = r.accountId ∧ s.execId = r.execId

/-- A raw row is deleted: its attribution goes with the last row of its fill, its commission with
the last row of its execution id, and nothing else. -/
structure Deleted (db : Db) (id : ℤ) (r : RawRow) (db' : Db) : Prop where
  raw : ∀ t s, s ∈ (db'.executions.raw t).rows ↔
    s ∈ (db.executions.raw t).rows ∧ (t, s.id) ≠ rawTablePk id
  attribution : ∀ x, x ∈ db'.executions.tradeExecution.rows ↔
    x ∈ db.executions.tradeExecution.rows ∧ (x.key = r.fillKey → Left db' (SameFill r))
  commission : ∀ c, c ∈ db'.commissions.rows ↔
    c ∈ db.commissions.rows ∧ (some c.execId = r.execId → Left db' fun s => s.execId = r.execId)
  others : db'.executions.trades = db.executions.trades ∧ db'.links = db.links

/-- A call that succeeds deletes what it should, and one that is refused, or fails before it
commits, changes neither database. -/
structure DeletesOnly (db : Db) (e : Op × Fault) (db' : Db) : Prop where
  succeeded : e.2 = .none → (attempt db e.1).isSome →
    ∃ r, fillRow db.executions e.1.id = some r ∧ Deleted db e.1.id r db'
  refused : attempt db e.1 = none ∨ e.2 = .beforeCommit → db' = db

/-- The execution id of a row is stored trimmed, or there is no commission under it. -/
def CommissionTrimmed (db : Db) (r : RawRow) : Prop :=
  r.fillKey.2 ≠ "" ∧ r.execId = some r.fillKey.2 ∨
    ∀ c ∈ db.commissions.rows,
      some c.execId ≠ r.execId ∧ (r.fillKey.2 ≠ "" → c.execId ≠ r.fillKey.2)

/-- The account and execution id of a row are stored trimmed, or nothing is attributed under
them. -/
def AttributionTrimmed (db : Db) (r : RawRow) : Prop :=
  r.fillKey.2 ≠ "" ∧ r.accountId = some r.fillKey.1 ∧ r.execId = some r.fillKey.2 ∨
    ∀ x ∈ db.executions.tradeExecution.rows, x.key ≠ r.fillKey

/-- `delete_one_execution` of a row that shares its execution id finds no commission. -/
def NoSharedCommission (db : Db) (r : RawRow) : Op → Prop
  | .deleteStrict _ => True
  | .deleteOne id =>
      (∀ t, ∀ s ∈ (db.executions.raw t).rows, s.execId = r.execId → (t, s.id) = rawTablePk id) ∨
        ∀ c ∈ db.commissions.rows, some c.execId ≠ r.execId

/-- The ids of the row named are stored trimmed, and `delete_one_execution` finds no commission that
another row still needs. -/
def Safe (db : Db) (e : Op × Fault) : Prop :=
  ∀ r ∈ fillRow db.executions e.1.id,
    CommissionTrimmed db r ∧ AttributionTrimmed db r ∧ NoSharedCommission db r e.1

instance (db : Db) (r : RawRow) : Decidable (CommissionTrimmed db r) :=
  inferInstanceAs (Decidable (_ ∨ _))

instance (db : Db) (r : RawRow) : Decidable (AttributionTrimmed db r) :=
  inferInstanceAs (Decidable (_ ∨ _))

instance (db : Db) (r : RawRow) : DecidablePred (NoSharedCommission db r)
  | .deleteStrict _ => isTrue trivial
  | .deleteOne _ => inferInstanceAs (Decidable (_ ∨ _))

instance (db : Db) : DecidablePred (Safe db) :=
  fun e => inferInstanceAs (Decidable (∀ r ∈ fillRow db.executions e.1.id, _))

/-! ## One call -/

variable {db db' : Db} {id : ℤ} {r : RawRow}

theorem stillUsed_iff {executions : ExecutionDb} {execId : String} :
    stillUsed executions execId = true ↔
      ∃ t, ∃ s ∈ (executions.raw t).rows, s.execId = some execId := by
  simp only [stillUsed, List.any_eq_true, decide_eq_true_eq]
  constructor
  · rintro ⟨t, -, h⟩
    exact ⟨t, h⟩
  · rintro ⟨t, h⟩
    exact ⟨t, by cases t <;> simp, h⟩

/-- The raw rows that are left after a row is deleted. -/
theorem mem_raw_deleteRaw {executions : ExecutionDb} {t : RawTable} {s : RawRow} :
    s ∈ ((deleteRaw executions id r).1.raw t).rows ↔
      s ∈ (executions.raw t).rows ∧ (t, s.id) ≠ rawTablePk id := by
  unfold deleteRaw
  generalize rawTablePk id = place
  dsimp only
  rw [(of_dropAttributionIfLast _ r.fillKey).1.1]
  by_cases ht : t = place.1
  · subst ht
    simp [Prod.ext_iff]
  · rw [raw_withRaw_of_ne ht]
    simp [Prod.ext_iff, ht]

/-- The attributions that are left after a row is deleted. -/
theorem mem_attribution_deleteRaw {executions : ExecutionDb} {x : TradeExecutionRow} :
    x ∈ (deleteRaw executions id r).1.tradeExecution.rows ↔
      x ∈ executions.tradeExecution.rows ∧ (x.key = r.fillKey → r.fillKey.2 = "" ∨
        ∃ t, ∃ s ∈ ((deleteRaw executions id r).1.raw t).rows,
          s.accountId = some r.fillKey.1 ∧ s.execId = some r.fillKey.2) := by
  have hraw := fun (t : RawTable) => congrArg (fun raw => (raw t).rows)
    (of_dropAttributionIfLast (withRaw executions (rawTablePk id).1
      ((executions.raw (rawTablePk id).1).delete fun s => s.id = (rawTablePk id).2)) r.fillKey).1.1
  unfold deleteRaw at *
  dsimp only at *
  simp only [hraw]
  generalize hdb₁ : withRaw executions (rawTablePk id).1
    ((executions.raw (rawTablePk id).1).delete fun s => s.id = (rawTablePk id).2) = db₁
  have hsame : db₁.tradeExecution = executions.tradeExecution := hdb₁ ▸ rfl
  unfold dropAttributionIfLast
  dsimp only
  split_ifs with hkeep
  · rw [hsame]
    refine ⟨fun hx => ⟨hx, fun _ => ?_⟩, fun hx => hx.1⟩
    simp only [List.any_eq_true, decide_eq_true_eq] at hkeep
    rcases hkeep with h | h | h | h
    exacts [.inl h, .inr ⟨_, h⟩, .inr ⟨_, h⟩, .inr ⟨_, h⟩]
  · simp only [List.any_eq_true, decide_eq_true_eq, not_or] at hkeep
    have hnone : ¬ ∃ t, ∃ s ∈ (db₁.raw t).rows,
        s.accountId = some r.fillKey.1 ∧ s.execId = some r.fillKey.2 := by
      rintro ⟨t, h⟩
      cases t with
      | tws => exact hkeep.2.1 h
      | flex => exact hkeep.2.2.1 h
      | journal => exact hkeep.2.2.2 h
    have hrows : (db₁.deleteAttributions fun x => decide (x.key = r.fillKey)).tradeExecution.rows =
        executions.tradeExecution.rows.filter fun x => !decide (x.key = r.fillKey) := by
      rw [← hsame]
      rfl
    rw [hrows, List.mem_filter]
    simp only [Bool.not_eq_true', decide_eq_false_iff_not, hkeep.1, hnone, or_self]

theorem trades_deleteRaw {executions : ExecutionDb} :
    (deleteRaw executions id r).1.trades = executions.trades := by
  unfold deleteRaw
  dsimp only
  rw [(of_dropAttributionIfLast _ r.fillKey).1.2]
  rfl

/-- The databases after a raw row is deleted, with a part of the commissions. -/
theorem deleted_of_trimmed (hattribution : AttributionTrimmed db r)
    {commissions : Sql.Table CommissionRow.execId}
    (hcommission : ∀ c, c ∈ commissions.rows ↔ c ∈ db.commissions.rows ∧
      (some c.execId = r.execId →
        ∃ t, ∃ s ∈ ((deleteRaw db.executions id r).1.raw t).rows, s.execId = r.execId)) :
    Deleted db id r ⟨(deleteRaw db.executions id r).1, commissions, db.links⟩ := by
  have hraw := fun t s => @mem_raw_deleteRaw id r db.executions t s
  have hrows := fun x => @mem_attribution_deleteRaw id r db.executions x
  have htrades := @trades_deleteRaw id r db.executions
  generalize (deleteRaw db.executions id r).1 = executions at *
  refine ⟨hraw, fun x => ?_, hcommission, htrades, rfl⟩
  rw [hrows]
  refine and_congr_right fun hx => forall_congr' fun hkey => ?_
  rcases hattribution with ⟨hne, haccount, hexec⟩ | hnone
  · simp only [hne, false_or, Left, SameFill, haccount, hexec]
  · exact absurd hkey (hnone x hx)

theorem deleted_deleteOne (hr : fillRow db.executions id = some r)
    (hcommission : CommissionTrimmed db r) (hattribution : AttributionTrimmed db r)
    (hshared : NoSharedCommission db r (.deleteOne id))
    (h : deleteOneExecution db id = some db') : Deleted db id r db' := by
  rw [deleteOneExecution, hr] at h
  obtain rfl := Option.some.inj h
  refine deleted_of_trimmed hattribution fun c => ?_
  rcases hcommission with ⟨hne, hexec⟩ | hnone
  · rw [if_neg hne, Sql.Table.mem_delete, decide_eq_false_iff_not, hexec, Option.some.injEq]
    refine and_congr_right fun hc => ⟨fun hother heq => absurd heq hother, fun hleft heq => ?_⟩
    -- a commission under the execution id is there, so no other row carries it
    obtain ⟨t, s, hs, hsexec⟩ := hleft heq
    obtain ⟨hs, hplace⟩ := mem_raw_deleteRaw.1 hs
    rcases hshared with honly | hfree
    · exact hplace (honly t s hs (hsexec.trans hexec.symm))
    · exact hfree c hc (by rw [hexec, heq])
  · split_ifs with hempty
    · exact ⟨fun hc => ⟨hc, fun heq => absurd heq (hnone c hc).1⟩, fun hc => hc.1⟩
    · rw [Sql.Table.mem_delete, decide_eq_false_iff_not]
      exact ⟨fun hc => ⟨hc.1, fun heq => absurd heq (hnone c hc.1).1⟩,
        fun hc => ⟨hc.1, (hnone c hc.1).2 hempty⟩⟩

theorem deleted_deleteStrict (hr : fillRow db.executions id = some r)
    (hcommission : CommissionTrimmed db r) (hattribution : AttributionTrimmed db r) {n : ℕ}
    (h : deleteExecutionStrict db id = .ok (db', n)) : Deleted db id r db' := by
  unfold deleteExecutionStrict Portfolio.deleteExecutionStrict at h
  simp only [hr, Option.map_some, Option.elim_some] at h
  split_ifs at h
  · cases h
  obtain ⟨rfl, -⟩ := Prod.mk.inj (Except.ok.inj h)
  refine deleted_of_trimmed hattribution fun c => ?_
  rcases hcommission with ⟨hne, hexec⟩ | hnone
  · simp only [hne, false_or, stillUsed_iff, hexec, Option.some.injEq]
    split_ifs with hused
    · exact ⟨fun hc => ⟨hc, fun _ => hused⟩, fun hc => hc.1⟩
    · rw [Sql.Table.mem_delete, decide_eq_false_iff_not]
      exact and_congr_right fun _ => ⟨fun hother heq => absurd heq hother,
        fun hleft heq => hused (hleft heq)⟩
  · split_ifs with hkeep
    · exact ⟨fun hc => ⟨hc, fun heq => absurd heq (hnone c hc).1⟩, fun hc => hc.1⟩
    · rw [Sql.Table.mem_delete, decide_eq_false_iff_not]
      exact ⟨fun hc => ⟨hc.1, fun heq => absurd heq (hnone c hc.1).1⟩,
        fun hc => ⟨hc.1, (hnone c hc.1).2 fun hempty => hkeep (.inl hempty)⟩⟩

/-- A call that goes through names a row. -/
theorem fillRow_of_attempt {op : Op} (h : attempt db op = some db') :
    ∃ r, fillRow db.executions op.id = some r := by
  cases op with
  | deleteOne id =>
    obtain ⟨r, hr, -⟩ := Option.map_eq_some_iff.1 h
    exact ⟨r, hr⟩
  | deleteStrict id =>
    cases hr : fillRow db.executions id with
    | some r => exact ⟨r, hr⟩
    | none =>
      simp [attempt, deleteExecutionStrict, Portfolio.deleteExecutionStrict, hr, Except.map,
        Except.toOption] at h

theorem deletesOnly_step {e : Op × Fault} (hsafe : Safe db e) : DeletesOnly db e (step db e) := by
  obtain ⟨op, fault⟩ := e
  constructor
  · intro hfault hsome
    obtain rfl : fault = .none := hfault
    obtain ⟨db', hattempt⟩ := Option.isSome_iff_exists.1 hsome
    have hstep : step db (op, .none) = db' := by
      simp only [step]
      rw [hattempt]
    rw [hstep]
    obtain ⟨r, hr⟩ := fillRow_of_attempt hattempt
    obtain ⟨hcommission, hattribution, hshared⟩ := hsafe r hr
    refine ⟨r, hr, ?_⟩
    cases op with
    | deleteOne id => exact deleted_deleteOne hr hcommission hattribution hshared hattempt
    | deleteStrict id =>
      obtain ⟨deleted, hdeleted, rfl⟩ := Option.map_eq_some_iff.1 hattempt
      cases hstrict : deleteExecutionStrict db id with
      | error err =>
        rw [hstrict] at hdeleted
        cases hdeleted
      | ok answer =>
        rw [hstrict] at hdeleted
        obtain rfl := Option.some.inj hdeleted
        exact deleted_deleteStrict hr hcommission hattribution hstrict
  · rintro (hnone | hfault)
    · have hnone : attempt db op = none := hnone
      cases fault <;> simp only [step, hnone]
    · obtain rfl : fault = .beforeCommit := hfault
      simp only [step]

/-! ## Runs -/

/-- **A twin keeps what it needs.**  In a run whose calls name rows with trimmed ids, and where
`delete_one_execution` finds no commission that another row shares, every call deletes only what no
row needs any more. -/
theorem deletesOnly_run (start : Db) (evs : List (Op × Fault))
    (h : Along step start (fun _ db e => Safe db e) evs) :
    Along step start (fun _ db e => DeletesOnly db e (step db e)) evs :=
  h.imp fun _ _ _ hsafe => deletesOnly_step hsafe

/-! ## A fill from TWS and from Flex -/

/-- A fill in the TWS table. -/
def twsTwin : RawRow := ⟨1, some "U1", some "e1", some "BUY", some (.fin 1), some "tws", none⟩

/-- The same fill in the Flex table. -/
def flexTwin : RawRow :=
  ⟨1, some "U1", some "e1", some "BUY", some (.fin 1), some "flex_trades", some "t1"⟩

/-- The two rows of the fill, with its commission. -/
def twinDb : Db where
  executions :=
    { ExecutionDb.empty with
      raw := fun
        | .tws => ⟨[twsTwin], List.pairwise_singleton _ _⟩
        | .flex => ⟨[flexTwin], List.pairwise_singleton _ _⟩
        | .journal => .empty }
  commissions := ⟨[⟨"e1", some (.fin (-1)), none, none, none, none⟩], List.nodup_singleton _⟩
  links := []

/-- The rows of the fill deleted strictly, the second after a call that fails. -/
def strictDeletes : List (Op × Fault) :=
  [(.deleteStrict (-1), .none), (.deleteStrict 1, .beforeCommit), (.deleteStrict 1, .none)]

theorem deletesOnly_run_strict :
    Along step twinDb (fun _ db e => Safe db e) strictDeletes ∧
      Along step twinDb (fun _ db e => DeletesOnly db e (step db e)) strictDeletes := by
  have hsafe : Along step twinDb (fun _ db e => Safe db e) strictDeletes := by decide +kernel
  exact ⟨hsafe, deletesOnly_run twinDb strictDeletes hsafe⟩

/-- The commission of a fill goes with its TWS row, though its Flex row is left. -/
theorem not_deletesOnly_twin :
    ¬ Along step twinDb (fun _ db e => DeletesOnly db e (step db e))
      [(.deleteOne (-1), .none)] := by
  intro h
  have hrow : fillRow twinDb.executions (-1) = some twsTwin := by decide +kernel
  obtain ⟨r, hr, hdeleted⟩ := (h [] _ [] rfl).succeeded rfl (by decide +kernel)
  obtain rfl : twsTwin = r := Option.some.inj (hrow.symm.trans hr)
  have hleft : flexTwin ∈ ((step twinDb (.deleteOne (-1), .none)).executions.raw .flex).rows := by
    decide +kernel
  have hgone : (step twinDb (.deleteOne (-1), .none)).commissions.rows = [] := by decide +kernel
  have hkept := (hdeleted.commission ⟨"e1", some (.fin (-1)), none, none, none, none⟩).2
    ⟨List.mem_singleton_self _, fun _ => ⟨.flex, flexTwin, hleft, rfl⟩⟩
  rw [run_nil, hgone] at hkept
  cases hkept

end Portfolio.Deletes
