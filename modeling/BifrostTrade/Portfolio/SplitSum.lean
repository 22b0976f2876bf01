import BifrostTrade.Lib.Runs
import BifrostTrade.Portfolio.ExecutionWritersProof

/-!
# Sums of splits

The splits of a fill name different trades of the fill's account in every state, because the tables
hold nothing else.  That they add up to the fill's quantity is checked only where splits are
written, against one raw row.  `FillChange` says what a call writes.  `splitsAddUp_run` needs that
raw rows written without splits fit the splits that stand, and that splits sent fit the other
stored rows of the fill; the row they are sent for fits them by the writer's check.
-/

namespace Portfolio

open Py Persistence

/-- The quantities of the splits of a fill. -/
def splitSizes (db : ExecutionDb) (k : FillKey) : List ℚ :=
  (db.splitsAt k).filterMap TradeExecutionRow.splitQuantity

/-- No splits, or splits that add up to a finite quantity within the writer's tolerance. -/
def AddUp (sizes : List ℚ) : Double → Prop
  | .fin x => sizes = [] ∨ |sizes.sum - x| ≤ splitTolerance * max 1 |x|
  | _ => sizes = []

instance (sizes : List ℚ) (q : Double) : Decidable (AddUp sizes q) := by
  cases q <;> unfold AddUp <;> infer_instance

/-- The splits of every fill name different trades of its account and add up to it. -/
structure SplitsAddUp (db : ExecutionDb) : Prop where
  trades : ∀ k, ((db.splitsAt k).map TradeExecutionRow.tradeId).Nodup
  account : ∀ k, ∀ x ∈ db.splitsAt k,
    ∃ t ∈ db.trades.rows, t.tradeId = x.tradeId ∧ t.accountId = k.1
  sum : ∀ t, ∀ r ∈ (db.raw t).rows, r.fillKey.2 ≠ "" →
    AddUp (splitSizes db r.fillKey) (normalizedSignedQty r)

/-! ## What a call writes -/

/-- Splits that a call sends: for the raw row that it names or inserts, as the call leaves it. -/
structure SentSplits where
  row : RawRow
  place : RawTable × ℤ
  sizes : List ℚ

/-- The raw rows a call writes, and the splits it sends. -/
structure FillChange where
  written : List RawRow
  splits : Option SentSplits

/-- A call that changes no fill. -/
def FillChange.none : FillChange := ⟨[], Option.none⟩

/-- The splits of a fill when a change has gone through. -/
def FillChange.splitsAfter (c : FillChange) (db : ExecutionDb) (k : FillKey) : List ℚ :=
  match c.splits with
  | some s => if k = s.row.fillKey then s.sizes else splitSizes db k
  | Option.none => splitSizes db k

/-- The splits that a body sends for a row. -/
def SplitsField.sent (r : RawRow) (place : RawTable × ℤ) : SplitsField → Option SentSplits
  | .list items => some ⟨r, place, items.filterMap SplitItem.size⟩
  | _ => none

/-- Whether an edit writes the raw row. -/
def UpdateBody.writesRow (body : UpdateBody) : Bool := body.setsColumns ∨ body.commission

/-- The raw row an edit leaves. -/
def UpdateBody.editedRow (body : UpdateBody) (id : ℤ) (r : RawRow) : RawRow :=
  if body.commission then manualExecId id (body.edit r) else body.edit r

/-- What a call writes, from its input and the state before it. -/
def fillChange (db : ExecutionDb) : ExecutionEvent → FillChange
  | .insert seqId uuidHex body =>
      { written := [body.row seqId uuidHex]
        splits := body.fillSplits.sent (body.row seqId uuidHex) (body.table, seqId.1) }
  | .update id body =>
      match fillRow db id with
      | none => .none
      | some r =>
          { written := if body.writesRow then [body.editedRow id r] else []
            splits := body.fillSplits.sent (body.edit r) (rawTablePk id) }
  | .patch id fields =>
      match fillRow db id with
      | none => .none
      | some r =>
          { FillChange.none with
            splits := fields.fillSplits.map fun items =>
              ⟨r, rawTablePk id, items.filterMap SplitItem.size⟩ }
  | .replaceSplits id allocations =>
      match fillRow db id with
      | none => .none
      | some r => { FillChange.none with splits := allocations.sent r (rawTablePk id) }
  | .importRows rows =>
      { FillChange.none with
        -- a row that TWS or the journal has already is left out
        written := (rows.filter fun r => ¬ (r.stored db ∧ r.table ≠ .flex)).map ImportRow.row }
  -- the splits go with the commit that is missing
  | .goldenOnly call => { fillChange db call with splits := Option.none }
  | _ => .none

/-- Raw rows that are written, and not given splits by the same call, fit the splits that stand
for their fill.  Splits that are sent are for a row of finite quantity and fit every other row
stored of its fill; that they fit the row itself the writer checks. -/
def KeepsSplitSum (_ : List ExecutionEvent) (db : ExecutionDb) (e : ExecutionEvent) : Prop :=
  let c := fillChange db e
  (∀ w ∈ c.written, w.fillKey.2 ≠ "" → (∀ s ∈ c.splits, s.row.fillKey ≠ w.fillKey) →
      AddUp (splitSizes db w.fillKey) (normalizedSignedQty w)) ∧
    ∀ s ∈ c.splits, s.sizes ≠ [] → (normalizedSignedQty s.row).isFinite = true ∧
      ∀ t, ∀ r ∈ (db.raw t).rows, (t, r.id) ≠ s.place → r.fillKey = s.row.fillKey →
        AddUp s.sizes (normalizedSignedQty r)

instance (pre : List ExecutionEvent) (db : ExecutionDb) (e : ExecutionEvent) :
    Decidable (KeepsSplitSum pre db e) := by
  unfold KeepsSplitSum
  infer_instance

variable {db db' : ExecutionDb} {k : FillKey} {id : ℤ}

theorem addUp_nil (q : Double) : AddUp [] q := by
  cases q with
  | fin x => exact .inl rfl
  | _ => rfl

theorem FillChange.splitsAfter_of_none {c : FillChange} (h : c.splits = Option.none) :
    c.splitsAfter db k = splitSizes db k := by
  rw [FillChange.splitsAfter, h]

/-- Two raw rows of one fill with the same signed quantity. -/
def SameFill (r s : RawRow) : Prop :=
  r.fillKey = s.fillKey ∧ normalizedSignedQty r = normalizedSignedQty s

theorem SameFill.refl (r : RawRow) : SameFill r r := ⟨rfl, rfl⟩

theorem sameFill_rowOver (r : ImportRow) (s : RawRow) : SameFill (r.rowOver s) r.row := by
  constructor
  · simp only [RawRow.fillKey, ImportRow.rowOver]
  · simp only [normalizedSignedQty, ImportRow.rowOver]

/-- The state after a call holds no raw row and no splits but what was there and what is written;
splits that are sent passed the check against the row that stands in their place. -/
structure Follows (db : ExecutionDb) (c : FillChange) (db' : ExecutionDb) : Prop where
  rows : ∀ t, ∀ r ∈ (db'.raw t).rows, r ∈ (db.raw t).rows ∨
    ∃ w ∈ c.written, SameFill r w ∧ ∀ s ∈ c.splits, (t, r.id) = s.place
  splits : ∀ k, splitSizes db' k = [] ∨ splitSizes db' k = c.splitsAfter db k
  named : ∀ s ∈ c.splits, ∀ t, ∀ r ∈ (db'.raw t).rows, (t, r.id) = s.place → SameFill r s.row
  checked : ∀ s ∈ c.splits,
    s.sizes = [] ∨ sumMismatch s.sizes.sum (normalizedSignedQty s.row) = false

/-- What the writer checks, for a row of finite quantity. -/
theorem addUp_of_checked {sizes : List ℚ} {q : Double} (hq : q.isFinite = true)
    (h : sumMismatch sizes.sum q = false) : AddUp sizes q := by
  cases q with
  | fin x => exact .inr (not_lt.1 (of_decide_eq_false h))
  | _ => cases hq

/-- A change that fits keeps the splits of every fill adding up. -/
theorem SplitsAddUp.of_follows {e : ExecutionEvent} (h : SplitsAddUp db)
    (hkeep : KeepsSplitSum [] db e) (hfollows : Follows db (fillChange db e) db') :
    SplitsAddUp db' where
  trades k := db'.splitsAt_trades_nodup k
  account k x hx := ExecutionDb.account_of_mem_splitsAt hx
  sum := by
    intro t r hr hexec
    obtain ⟨hwritten, hsplits⟩ := hkeep
    rcases hfollows.splits r.fillKey with hnil | hafter
    · rw [hnil]
      exact addUp_nil _
    rw [hafter]
    -- the splits that stood, where the call sends none for this fill
    have hstood : (∀ s ∈ (fillChange db e).splits, s.row.fillKey ≠ r.fillKey) →
        AddUp (splitSizes db r.fillKey) (normalizedSignedQty r) := by
      intro hother
      rcases hfollows.rows t r hr with hold | ⟨w, hw, ⟨hkey, hqty⟩, -⟩
      · exact h.sum t r hold hexec
      · rw [hkey, hqty]
        exact hwritten w hw (hkey ▸ hexec) (hkey ▸ hother)
    cases hc : (fillChange db e).splits with
    | none =>
      rw [FillChange.splitsAfter_of_none hc]
      exact hstood (by simp [hc])
    | some s =>
      rw [FillChange.splitsAfter, hc]
      dsimp only
      split_ifs with hk
      · rcases hfollows.checked s hc with hnil | hcheck
        · rw [hnil]
          exact addUp_nil _
        by_cases hne : s.sizes = []
        · rw [hne]
          exact addUp_nil _
        obtain ⟨hfinite, htwins⟩ := hsplits s hc hne
        by_cases hplace : (t, r.id) = s.place
        · -- the row the splits were checked against
          rw [(hfollows.named s hc t r hr hplace).2]
          exact addUp_of_checked hfinite hcheck
        · rcases hfollows.rows t r hr with hold | ⟨w, -, -, hat⟩
          · exact htwins t r hold hplace hk
          · exact absurd (hat s hc) hplace
      · refine hstood fun s' hs' => ?_
        rw [hc] at hs'
        cases hs'
        exact Ne.symm hk

/-! ## Every call writes what its change says -/

theorem splitSizes_of_same (h : SameAttribution db db') : splitSizes db' k = splitSizes db k := by
  rw [splitSizes, h.splitsAt, splitSizes]

theorem splitSizes_of_setWhole {trade : Option ℤ} {k' : FillKey}
    (h : setWholeAttribution db k trade = some db') : splitSizes db' k' = splitSizes db k' := by
  rw [splitSizes, (of_setWholeAttribution h).2.1, splitSizes]

/-- The splits after the splits part of a body. -/
theorem splitSizes_of_appliesSplits {splits : SplitsField} {r : RawRow}
    (hr : fillRow db id = some r) (h : AppliesSplits db id splits db') (written : List RawRow)
    (place : RawTable × ℤ) :
    splitSizes db' k = FillChange.splitsAfter ⟨written, splits.sent r place⟩ db k := by
  rcases h with ⟨items, rfl, happly⟩ | ⟨hnone, rfl⟩
  · obtain ⟨r', hr', -, -, hother, hsizes, -⟩ := of_applyFillSplits happly
    obtain rfl : r = r' := Option.some.inj (hr.symm.trans hr')
    simp only [FillChange.splitsAfter, SplitsField.sent]
    split_ifs with hk
    · rw [splitSizes, hk, hsizes]
    · rw [splitSizes, (hother k hk).1, splitSizes]
  · rcases hnone with rfl | rfl <;> rfl

/-- Splits that are sent and taken are for a row with an execution id and passed the check. -/
theorem checked_of_appliesSplits {splits : SplitsField} {r : RawRow} {place : RawTable × ℤ}
    {s : SentSplits} (hr : fillRow db id = some r) (h : AppliesSplits db id splits db')
    (hs : s ∈ splits.sent r place) :
    s.row = r ∧ s.place = place ∧ r.fillKey.2 ≠ "" ∧
      (s.sizes = [] ∨ sumMismatch s.sizes.sum (normalizedSignedQty r) = false) := by
  rcases h with ⟨items, rfl, happly⟩ | ⟨rfl | rfl, -⟩
  · obtain rfl := Option.some.inj hs
    obtain ⟨r', hr', hexec, -⟩ := of_applyFillSplits happly
    obtain rfl : r = r' := Option.some.inj (hr.symm.trans hr')
    refine ⟨rfl, rfl, hexec, ?_⟩
    rcases checked_of_applyFillSplits happly hr with rfl | hcheck
    exacts [.inl rfl, .inr hcheck]
  · cases hs
  · cases hs

theorem raw_of_appliesSplits {splits : SplitsField} (h : AppliesSplits db id splits db') :
    db'.raw = db.raw := by
  rcases h with ⟨items, -, happly⟩ | ⟨-, rfl⟩
  · obtain ⟨r, -, -, hsame, -⟩ := of_applyFillSplits happly
    exact hsame.1
  · rfl

/-- The row in the place that an execution id names is the row of the execution. -/
theorem eq_of_fillRow_at {r s : RawRow} {t : RawTable} (hr : fillRow db id = some r)
    (hs : s ∈ (db.raw t).rows) (hplace : (t, s.id) = rawTablePk id) : s = r := by
  obtain ⟨rfl, hid⟩ := Prod.mk.inj (hplace.trans (Prod.mk.eta (p := rawTablePk id)).symm)
  exact eq_of_fillRow hr hs hid

theorem follows_insert {seqId : SeqId} {uuidHex : UuidHex} {body : InsertBody}
    (h : insertOneExecution db seqId uuidHex body = some (db', id)) :
    Follows db (fillChange db (.insert seqId uuidHex body)) db' := by
  obtain ⟨db₁, db₂, hraw, htrade, hsplits⟩ := of_insertOneExecution h
  obtain ⟨hsame, hrows, -, hother⟩ := of_insertRaw hraw
  have h₂ : db₂.raw = db₁.raw ∧ ∀ k, splitSizes db₂ k = splitSizes db₁ k := by
    rcases htrade with ⟨-, rfl⟩ | ⟨t, -, -, hset⟩
    · exact ⟨rfl, fun _ => rfl⟩
    · exact ⟨(of_setWholeAttribution hset).1.1, fun _ => splitSizes_of_setWhole hset⟩
  have hfill : fillRow db₁ (body.newId seqId) = some (body.row seqId uuidHex) :=
    fillRow_insertRaw hraw
  have hrow : fillRow db₂ (body.newId seqId) = some (body.row seqId uuidHex) := by
    rw [fillRow, h₂.1]
    exact hfill
  have hraw' : db'.raw = db₁.raw := (raw_of_appliesSplits hsplits).trans h₂.1
  constructor
  · intro t r hr
    rw [hraw'] at hr
    by_cases ht : t = body.table
    · rw [ht, hrows, List.mem_append, List.mem_singleton] at hr
      rw [ht]
      rcases hr with hr | rfl
      · exact .inl hr
      · refine .inr ⟨_, List.mem_singleton_self _, SameFill.refl _, fun s hs => ?_⟩
        exact (checked_of_appliesSplits hrow hsplits hs).2.1.symm
    · rw [hother t ht] at hr
      exact .inl hr
  · intro k
    right
    have hsizes : ∀ k, splitSizes db₂ k = splitSizes db k :=
      fun k => (h₂.2 k).trans (splitSizes_of_same hsame)
    rw [splitSizes_of_appliesSplits hrow hsplits [body.row seqId uuidHex]
      (body.table, seqId.1)]
    simp only [FillChange.splitsAfter, fillChange, hsizes]
  · intro s hs t r hr hplace
    obtain ⟨hrow', hplace', -⟩ := checked_of_appliesSplits hrow hsplits hs
    rw [hraw'] at hr
    have hat : (t, r.id) = rawTablePk (body.newId seqId) :=
      (hplace.trans hplace').trans (rawTablePk_newId body seqId).symm
    rw [hrow', eq_of_fillRow_at hfill hr hat]
    exact SameFill.refl _
  · intro s hs
    obtain ⟨hrow', -, -, hcheck⟩ := checked_of_appliesSplits hrow hsplits hs
    rw [hrow']
    exact hcheck

theorem id_manualExecId (r : RawRow) : (manualExecId id r).id = r.id := by
  unfold manualExecId
  split_ifs <;> rfl

/-- The row that an update names, after it. -/
theorem fillRow_updateOneExecution {body : UpdateBody} {r : RawRow} {db₁ db₂ db₃ : ExecutionDb}
    (hr : fillRow db id = some r) (hraw : UpdatesRow db id body db₁) (h₂ : db₂.raw = db₁.raw)
    (h₃ : db₃.raw = db₂.raw)
    (hcomm : body.commission = true ∧ updateRaw db₃ id (manualExecId id) = some db' ∨
      body.commission = false ∧ db' = db₃) :
    fillRow db' id = some (body.editedRow id r) := by
  have hr₃ : fillRow db₃ id = some (body.edit r) := by
    rw [fillRow, h₃, h₂]
    exact hraw.fillRow hr
  unfold UpdateBody.editedRow
  rcases hcomm with ⟨hc, hupdate⟩ | ⟨hc, rfl⟩
  · rw [if_pos hc]
    exact fillRow_updateRaw id_manualExecId hr₃ hupdate
  · rw [if_neg (by simp [hc])]
    exact hr₃

/-- The raw rows after an update: the one named is the edited row, the others are as they were. -/
theorem mem_raw_of_updateOneExecution {body : UpdateBody} {r : RawRow} {db₁ db₂ db₃ : ExecutionDb}
    (hr : fillRow db id = some r) (hraw : UpdatesRow db id body db₁) (h₂ : db₂.raw = db₁.raw)
    (h₃ : db₃.raw = db₂.raw)
    (hcomm : body.commission = true ∧ updateRaw db₃ id (manualExecId id) = some db' ∨
      body.commission = false ∧ db' = db₃) {t : RawTable} {s : RawRow}
    (hs : s ∈ (db'.raw t).rows) :
    (t, s.id) = rawTablePk id ∧ s = body.editedRow id r ∨
      (t, s.id) ≠ rawTablePk id ∧ s ∈ (db.raw t).rows := by
  have hr' := fillRow_updateOneExecution hr hraw h₂ h₃ hcomm
  by_cases hplace : (t, s.id) = rawTablePk id
  · left
    exact ⟨hplace, eq_of_fillRow_at hr' hs hplace⟩
  · right
    refine ⟨hplace, ?_⟩
    have hs₃ : s ∈ (db₃.raw t).rows := by
      rcases hcomm with ⟨-, hupdate⟩ | ⟨-, rfl⟩
      exacts [mem_of_updateRaw id_manualExecId hupdate hplace hs, hs]
    rw [h₃, h₂] at hs₃
    rcases hraw with ⟨-, hupdate⟩ | ⟨-, rfl⟩
    exacts [mem_of_updateRaw (f := body.edit) (fun _ => rfl) hupdate hplace hs₃, hs₃]

/-- A row with an execution id keeps it when its commission is written. -/
theorem manualExecId_of_execId {r : RawRow} (h : r.fillKey.2 ≠ "") : manualExecId id r = r :=
  if_neg h

theorem follows_update {body : UpdateBody} (h : updateOneExecution db id body = some db') :
    Follows db (fillChange db (.update id body)) db' := by
  obtain ⟨r, db₁, db₂, db₃, hr, hraw, hsplits, hset, hcomm⟩ := of_updateOneExecution h
  have h₂ := raw_of_appliesSplits hsplits
  have h₃ : db₃.raw = db₂.raw ∧ ∀ k, splitSizes db₃ k = splitSizes db₂ k := by
    rcases hset with ⟨rfl, -⟩ | ⟨-, -, hset⟩
    · exact ⟨rfl, fun _ => rfl⟩
    · exact ⟨(of_setWholeAttribution hset).1.1, fun _ => splitSizes_of_setWhole hset⟩
  have hr₁ := hraw.fillRow hr
  simp only [fillChange, hr]
  constructor
  · intro t s hs
    by_cases hwrites : body.writesRow = true
    · rcases mem_raw_of_updateOneExecution hr hraw h₂ h₃.1 hcomm hs with
        ⟨hplace, rfl⟩ | ⟨-, hs⟩
      · right
        refine ⟨body.editedRow id r, by simp [hwrites], SameFill.refl _, fun s hs => ?_⟩
        rw [(checked_of_appliesSplits hr₁ hsplits hs).2.1]
        exact hplace
      · exact .inl hs
    · left
      -- neither columns nor a commission: the raw rows are as they were
      obtain ⟨hcols, hc⟩ : body.setsColumns = false ∧ body.commission = false := by
        simpa [UpdateBody.writesRow] using hwrites
      have hdb₁ : db₁ = db := by simpa [UpdatesRow, hcols] using hraw
      have hdb' : db' = db₃ := by simpa [hc] using hcomm
      rw [hdb', h₃.1, h₂, hdb₁] at hs
      exact hs
  · intro k
    right
    have hsame := hraw.sameAttribution
    have hdb' : splitSizes db' k = splitSizes db₃ k := by
      rcases hcomm with ⟨-, hupdate⟩ | ⟨-, rfl⟩
      exacts [splitSizes_of_same (of_updateRaw hupdate).1, rfl]
    rw [hdb', h₃.2, splitSizes_of_appliesSplits hr₁ hsplits
      (if body.writesRow then [body.editedRow id r] else []) (rawTablePk id)]
    simp only [FillChange.splitsAfter, splitSizes_of_same hsame]
  · intro s hs t x hx hplace
    obtain ⟨hrow, hplace', hexec, -⟩ := checked_of_appliesSplits hr₁ hsplits hs
    -- the splits were taken, so the edited row has an execution id and keeps it
    have hedited : body.editedRow id r = body.edit r := by
      unfold UpdateBody.editedRow
      split_ifs
      exacts [manualExecId_of_execId hexec, rfl]
    have hx' := eq_of_fillRow_at (fillRow_updateOneExecution hr hraw h₂ h₃.1 hcomm) hx
      (hplace.trans hplace')
    rw [hrow, hx', hedited]
    exact SameFill.refl _
  · intro s hs
    obtain ⟨hrow, -, -, hcheck⟩ := checked_of_appliesSplits hr₁ hsplits hs
    rw [hrow]
    exact hcheck

/-- A call that writes splits only. -/
theorem follows_splits {splits : SplitsField} {db₁ : ExecutionDb} {r : RawRow}
    {c : FillChange} (hr : fillRow db id = some r) (h : AppliesSplits db id splits db₁)
    (hraw : db'.raw = db₁.raw) (hsizes : ∀ k, splitSizes db' k = splitSizes db₁ k)
    (hc : c = ⟨[], splits.sent r (rawTablePk id)⟩) : Follows db c db' := by
  subst hc
  have hraw' : db'.raw = db.raw := hraw.trans (raw_of_appliesSplits h)
  constructor
  · intro t s hs
    rw [hraw'] at hs
    exact .inl hs
  · intro k
    right
    rw [hsizes, splitSizes_of_appliesSplits hr h [] (rawTablePk id)]
  · intro s hs t x hx hplace
    obtain ⟨hrow, hplace', -⟩ := checked_of_appliesSplits hr h hs
    rw [hraw'] at hx
    rw [hrow, eq_of_fillRow_at hr hx (hplace.trans hplace')]
    exact SameFill.refl _
  · intro s hs
    obtain ⟨hrow, -, -, hcheck⟩ := checked_of_appliesSplits hr h hs
    rw [hrow]
    exact hcheck

theorem follows_patch {fields : PatchFields} (h : patchExecution db id fields = .ok db') :
    Follows db (fillChange db (.patch id fields)) db' := by
  obtain ⟨r, db₁, hr, hsplits, hset⟩ := of_patchExecution h
  have h' : db'.raw = db₁.raw ∧ ∀ k, splitSizes db' k = splitSizes db₁ k := by
    rcases hset with rfl | hset
    · exact ⟨rfl, fun _ => rfl⟩
    · exact ⟨(of_setWholeAttribution hset).1.1, fun _ => splitSizes_of_setWhole hset⟩
  rcases hsplits with ⟨hnone, rfl, -⟩ | ⟨items, hitems, happly, -⟩
  · have happlies : AppliesSplits db₁ id .absent db₁ := .inr ⟨.inl rfl, rfl⟩
    refine follows_splits hr happlies h'.1 h'.2 ?_
    simp only [fillChange, hr, hnone, FillChange.none, SplitsField.sent, Option.map_none]
  · have happlies : AppliesSplits db id (.list items) db₁ := .inl ⟨items, rfl, happly⟩
    refine follows_splits hr happlies h'.1 h'.2 ?_
    simp only [fillChange, hr, hitems, FillChange.none, SplitsField.sent, Option.map_some]

/-- Nothing but raw rows and splits that were there is left. -/
theorem follows_none (hrows : ∀ t, ∀ r ∈ (db'.raw t).rows, r ∈ (db.raw t).rows)
    (hsplits : ∀ k, splitSizes db' k = [] ∨ splitSizes db' k = splitSizes db k) :
    Follows db .none db' where
  rows t r hr := .inl (hrows t r hr)
  splits := hsplits
  named s hs := by cases hs
  checked s hs := by cases hs

theorem follows_replaceSplits {allocations : SplitsField} (hdb' :
    replaceExecutionFillSplits db id allocations = some db') :
    Follows db (fillChange db (.replaceSplits id allocations)) db' := by
  have happlies : AppliesSplits db id allocations db' := by
    cases allocations with
    | absent => exact .inr ⟨.inl rfl, (Option.some.inj hdb').symm⟩
    | null => exact .inr ⟨.inr rfl, (Option.some.inj hdb').symm⟩
    | notList => cases hdb'
    | list items => exact .inl ⟨items, rfl, hdb'⟩
  cases hr : fillRow db id with
  | none =>
    simp only [fillChange, hr]
    -- without the row no splits are applied
    rcases happlies with ⟨items, -, happly⟩ | ⟨-, rfl⟩
    · obtain ⟨r, hr', -⟩ := of_applyFillSplits happly
      rw [hr] at hr'
      cases hr'
    · exact follows_none (fun _ _ hs => hs) fun _ => .inr rfl
  | some r =>
    refine follows_splits hr happlies rfl (fun _ => rfl) ?_
    simp only [fillChange, hr, FillChange.none]

theorem follows_delete (r : RawRow) : Follows db .none (deleteRaw db id r).1 := by
  obtain ⟨hrows, hsplits, -⟩ := of_deleteRaw db id r
  refine follows_none hrows fun k => ?_
  rcases hsplits k with hk | hk
  · right
    rw [splitSizes, hk, splitSizes]
  · left
    rw [splitSizes, hk, List.filterMap_nil]

/-! ### Imports -/

theorem stored_iff {r : ImportRow} : r.stored db = true ↔
    r.storedExecId.isSome ∧ ∃ s ∈ (db.raw r.table).rows, s.execId = r.storedExecId := by
  simp [ImportRow.stored]

/-- What one row of an import leaves in the tables: rows that were there, and rows of its fill. -/
theorem mem_raw_of_writeImportRow {r : ImportRow} (h : writeImportRow db r = some db')
    {t : RawTable} {s : RawRow} (hs : s ∈ (db'.raw t).rows) :
    s ∈ (db.raw t).rows ∨ ¬ (r.stored db = true ∧ r.table ≠ .flex) ∧ SameFill s r.row := by
  unfold writeImportRow at h
  split_ifs at h with hstored hflex
  · obtain ⟨rows, hrows, rfl⟩ := Option.map_eq_some_iff.1 h
    have hrows := Sql.Store.rows_of_update? hrows
    by_cases ht : t = r.table
    · subst ht
      rw [raw_withRaw, hrows] at hs
      obtain ⟨x, hx, rfl⟩ := List.mem_map.1 hs
      split_ifs
      · exact .inr ⟨fun hboth => hboth.2 hflex, sameFill_rowOver r x⟩
      · exact .inl hx
    · rw [raw_withRaw_of_ne ht] at hs
      exact .inl hs
  · obtain rfl := Option.some.inj h
    exact .inl hs
  · obtain ⟨-, hrows, -, hother⟩ := of_insertRaw h
    by_cases ht : t = r.table
    · subst ht
      rw [hrows, List.mem_append, List.mem_singleton] at hs
      rcases hs with hs | rfl
      · exact .inl hs
      · exact .inr ⟨fun hboth => hstored hboth.1, SameFill.refl _⟩
    · rw [hother t ht] at hs
      exact .inl hs

/-- An import lets no execution id go. -/
theorem stored_of_writeImportRow {r : ImportRow} (h : writeImportRow db r = some db')
    {x : ImportRow} (hx : x.stored db = true) : x.stored db' = true := by
  obtain ⟨hsome, s, hs, hexec⟩ := stored_iff.1 hx
  refine stored_iff.2 ⟨hsome, ?_⟩
  unfold writeImportRow at h
  split_ifs at h with hstored hflex
  · obtain ⟨rows, hrows, rfl⟩ := Option.map_eq_some_iff.1 h
    have hrows := Sql.Store.rows_of_update? hrows
    by_cases ht : x.table = r.table
    · rw [ht] at hs ⊢
      rw [raw_withRaw, hrows]
      refine ⟨_, List.mem_map_of_mem hs, ?_⟩
      split_ifs with hsame
      · -- the row written over had the id of the row that takes its place
        rw [execId_rowOver, ← of_decide_eq_true hsame]
        exact hexec
      · exact hexec
    · rw [raw_withRaw_of_ne ht]
      exact ⟨s, hs, hexec⟩
  · obtain rfl := Option.some.inj h
    exact ⟨s, hs, hexec⟩
  · obtain ⟨-, hrows, -, hother⟩ := of_insertRaw h
    refine ⟨s, ?_, hexec⟩
    by_cases ht : x.table = r.table
    · rw [ht] at hs ⊢
      rw [hrows]
      exact List.mem_append_left _ hs
    · rw [hother _ ht]
      exact hs

theorem mem_raw_of_import {rows : List ImportRow}
    (h : writeAccountExecutionsToDb db rows = some db') {t : RawTable} {s : RawRow}
    (hs : s ∈ (db'.raw t).rows) :
    s ∈ (db.raw t).rows ∨
      ∃ r ∈ rows, ¬ (r.stored db = true ∧ r.table ≠ .flex) ∧ SameFill s r.row := by
  unfold writeAccountExecutionsToDb at h
  induction rows generalizing db with
  | nil =>
    obtain rfl := Option.some.inj h
    exact .inl hs
  | cons r rows ih =>
    rw [List.foldlM_cons] at h
    obtain ⟨db₁, h₁, h⟩ := Option.bind_eq_some_iff.1 h
    rcases ih h with hs₁ | ⟨x, hx, hnot, hsame⟩
    · rcases mem_raw_of_writeImportRow h₁ hs₁ with hs₀ | hnew
      · exact .inl hs₀
      · exact .inr ⟨r, List.mem_cons_self .., hnew⟩
    · -- a row that was stored at the start still is when its turn comes
      refine .inr ⟨x, List.mem_cons_of_mem _ hx, fun hboth => ?_, hsame⟩
      exact hnot ⟨stored_of_writeImportRow h₁ hboth.1, hboth.2⟩

theorem follows_import {rows : List ImportRow}
    (h : writeAccountExecutionsToDb db rows = some db') :
    Follows db (fillChange db (.importRows rows)) db' where
  rows t s hs := by
    rcases mem_raw_of_import h hs with hs | ⟨r, hr, hnot, hsame⟩
    · exact .inl hs
    · refine .inr ⟨r.row, List.mem_map_of_mem (List.mem_filter.2 ⟨hr, ?_⟩), hsame, ?_⟩
      · exact decide_eq_true hnot
      · intro s hs
        cases hs
  splits k := .inr (splitSizes_of_same (sameAttribution_import h))
  named s hs := by cases hs
  checked s hs := by cases hs

/-- Every call that goes through writes what its change says. -/
theorem follows_attempt {e : ExecutionEvent} (h : attempt db e = some db') :
    Follows db (fillChange db e) db' := by
  induction e generalizing db' with
  | insert seqId uuidHex body =>
    obtain ⟨⟨db₁, id⟩, hinsert, rfl⟩ := Option.map_eq_some_iff.1 h
    exact follows_insert hinsert
  | update id body => exact follows_update h
  | patch id fields =>
    apply follows_patch
    cases hpatch : patchExecution db id fields with
    | error err => simp [attempt, hpatch, Except.toOption] at h
    | ok db₁ =>
      simp only [attempt, hpatch, Except.toOption, Option.some.injEq] at h
      rw [h]
  | replaceSplits id allocations => exact follows_replaceSplits h
  | delete id =>
    obtain ⟨r, -, rfl⟩ := Option.map_eq_some_iff.1 h
    exact follows_delete r
  | deleteStrict links id =>
    obtain ⟨⟨db₁, n⟩, hdelete, rfl⟩ := Option.map_eq_some_iff.1 h
    unfold deleteExecutionStrict at hdelete
    split at hdelete
    · cases hdelete
    · split_ifs at hdelete
      · cases hdelete
      · have heq := Option.some.inj hdelete
        rw [← heq]
        exact follows_delete _
  | importRows rows => exact follows_import h
  | setTrades trades =>
    obtain ⟨hraw, hrows⟩ := of_setTrades h
    refine follows_none (fun t s hs => ?_) fun k => .inr ?_
    · rw [hraw] at hs
      exact hs
    · rw [splitSizes, ExecutionDb.splitsAt, hrows, splitSizes, ExecutionDb.splitsAt]
  | goldenOnly call ih =>
    -- the raw rows are those of the whole call, and the splits are those that stood
    obtain ⟨db₁, hcall, rfl⟩ := Option.map_eq_some_iff.1 h
    have hfollows := ih hcall
    constructor
    · intro t r hr
      rcases hfollows.rows t r hr with hold | ⟨w, hw, hsame, -⟩
      · exact .inl hold
      · refine .inr ⟨w, hw, hsame, fun s hs => ?_⟩
        cases hs
    · exact fun k => .inr rfl
    · intro s hs
      cases hs
    · intro s hs
      cases hs

theorem SplitsAddUp.empty : SplitsAddUp ExecutionDb.empty where
  trades k := ExecutionDb.empty.splitsAt_trades_nodup k
  account k x hx := ExecutionDb.account_of_mem_splitsAt hx
  sum := by simp [ExecutionDb.empty]

/-- In a run whose calls meet the condition the splits of every fill name different trades of its
account and add up to its quantity, in every state. -/
theorem splitsAddUp_run (evs : List ExecutionEvent)
    (h : Runs.Along executionStep ExecutionDb.empty KeepsSplitSum evs) :
    ∀ pre, pre <+: evs → SplitsAddUp (Runs.run executionStep ExecutionDb.empty pre) := by
  rintro pre ⟨post, rfl⟩
  refine Runs.invariant (fun _ db => SplitsAddUp db) SplitsAddUp.empty
    (fun pre e hkeep hinv => ?_) h.of_append
  show SplitsAddUp ((attempt (Runs.run executionStep ExecutionDb.empty pre) e).getD
    (Runs.run executionStep ExecutionDb.empty pre))
  cases hattempt : attempt (Runs.run executionStep ExecutionDb.empty pre) e with
  | none => exact hinv
  | some db' => exact hinv.of_follows hkeep (follows_attempt hattempt)

/-! ## An edit of a split fill -/

/-- An edit of the quantity, with or without splits. -/
def sampleQuantityEdit (fillSplits : SplitsField) : UpdateBody where
  accountId := .absent
  side := .absent
  quantity := .value (.fin 3)
  source := .absent
  otherColumns := false
  commission := false
  tradeId := .absent
  strategyOpportunityId := .absent
  fillSplits

/-- A fill of two shares is split by hand and then edited to three. -/
def sampleQuantityRun (fillSplits : SplitsField) : List ExecutionEvent :=
  [.setTrades sampleTrades, .insert sampleSeqId sampleUuid sampleSplitFill,
    .update (-1) (sampleQuantityEdit fillSplits)]

/-- The splits of the three shares. -/
def sampleNewSplits : SplitsField :=
  .list [.dict (.id 1) (.number (.fin 1)), .dict (.id 2) (.number (.fin 2))]

/-- With new splits the edit keeps the sum. -/
theorem splitsAddUp_run_newSplits :
    SplitsAddUp (Runs.run executionStep ExecutionDb.empty (sampleQuantityRun sampleNewSplits)) := by
  refine splitsAddUp_run _ ?_ _ List.prefix_rfl
  refine (Runs.along_snoc [_, _] _).2 ⟨(Runs.along_snoc [_] _).2
    ⟨(Runs.along_snoc [] _).2 ⟨Runs.along_nil, ?_⟩, ?_⟩, ?_⟩
  all_goals decide +kernel

/-- Without splits the edit leaves two shares split out of three. -/
theorem not_splitsAddUp_quantityEdit :
    ¬ SplitsAddUp (Runs.run executionStep ExecutionDb.empty (sampleQuantityRun .absent)) := by
  intro h
  have hrows : ∀ r ∈ ((Runs.run executionStep ExecutionDb.empty
      (sampleQuantityRun .absent)).raw .tws).rows, r.fillKey.2 ≠ "" →
      AddUp (splitSizes (Runs.run executionStep ExecutionDb.empty (sampleQuantityRun .absent))
        r.fillKey) (normalizedSignedQty r) := h.sum .tws
  exact absurd hrows (by decide +kernel)

end Portfolio
