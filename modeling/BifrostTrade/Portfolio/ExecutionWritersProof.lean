import BifrostTrade.Portfolio.ExecutionWriters

/-!
# What the execution writers do

One lemma for each writer and each statement the writers share: what a call that goes through does
to the raw rows, to the splits and to the whole-fill attribution of every fill.
-/

namespace Portfolio

open Py Persistence

variable {db db' : ExecutionDb} {k k' : FillKey} {id : ℤ}

/-! ## Raw rows -/

@[simp] theorem raw_withRaw (db : ExecutionDb) (t : RawTable)
    (rows : Sql.Store (RawRow.clash t)) : (withRaw db t rows).raw t = rows := by
  simp [withRaw]

theorem raw_withRaw_of_ne {t t' : RawTable} {rows : Sql.Store (RawRow.clash t)} (h : t' ≠ t) :
    (withRaw db t rows).raw t' = db.raw t' := by
  simp [withRaw, h]

/-- Two states with the same trades and attributions. -/
def SameAttribution (db db' : ExecutionDb) : Prop :=
  db'.trades = db.trades ∧ db'.tradeExecution = db.tradeExecution

theorem sameAttribution_withRaw {t : RawTable} {rows : Sql.Store (RawRow.clash t)} :
    SameAttribution db (withRaw db t rows) := ⟨rfl, rfl⟩

theorem SameAttribution.splitsAt (h : SameAttribution db db') :
    db'.splitsAt k = db.splitsAt k := by
  rw [ExecutionDb.splitsAt, h.2, ExecutionDb.splitsAt]

theorem SameAttribution.wholeAt (h : SameAttribution db db') : db'.wholeAt k = db.wholeAt k := by
  rw [ExecutionDb.wholeAt, h.2, ExecutionDb.wholeAt]

theorem SameAttribution.refl (db : ExecutionDb) : SameAttribution db db := ⟨rfl, rfl⟩

theorem SameAttribution.trans {db'' : ExecutionDb} (h : SameAttribution db db')
    (h' : SameAttribution db' db'') : SameAttribution db db'' :=
  ⟨h'.1.trans h.1, h'.2.trans h.2⟩

theorem of_insertRaw {t : RawTable} {r : RawRow} (h : insertRaw db t r = some db') :
    SameAttribution db db' ∧ (db'.raw t).rows = (db.raw t).rows ++ [r] ∧
      (∀ s ∈ (db.raw t).rows, ¬ RawRow.clash t s r) ∧ ∀ t', t' ≠ t → db'.raw t' = db.raw t' := by
  obtain ⟨rows, hrows, rfl⟩ := Option.map_eq_some_iff.1 h
  obtain ⟨hins, hfree⟩ := Sql.Store.rows_of_insert? hrows
  refine ⟨sameAttribution_withRaw, ?_, hfree, fun t' ht => raw_withRaw_of_ne ht⟩
  rw [raw_withRaw, hins]

/-- A row after an update is a row before it, changed where its id is the one named. -/
theorem of_updateRaw {f : RawRow → RawRow} (h : updateRaw db id f = some db') :
    SameAttribution db db' ∧ (∀ t, t ≠ (rawTablePk id).1 → db'.raw t = db.raw t) ∧
      (db'.raw (rawTablePk id).1).rows = (db.raw (rawTablePk id).1).rows.map fun r =>
        if r.id = (rawTablePk id).2 then f r else r := by
  obtain ⟨rows, hrows, rfl⟩ := Option.map_eq_some_iff.1 h
  refine ⟨sameAttribution_withRaw, fun t ht => raw_withRaw_of_ne ht, ?_⟩
  rw [raw_withRaw, Sql.Store.rows_of_update? hrows]
  simp only [decide_eq_true_eq]

/-- A row that an update does not name was there before. -/
theorem mem_of_updateRaw {f : RawRow → RawRow} (hf : ∀ r, (f r).id = r.id)
    (h : updateRaw db id f = some db') {t : RawTable} {s : RawRow}
    (hplace : (t, s.id) ≠ rawTablePk id) (hs : s ∈ (db'.raw t).rows) : s ∈ (db.raw t).rows := by
  obtain ⟨-, hother, hrows⟩ := of_updateRaw h
  by_cases ht : t = (rawTablePk id).1
  · subst ht
    rw [hrows] at hs
    obtain ⟨x, hx, rfl⟩ := List.mem_map.1 hs
    split_ifs at hplace ⊢ with hid
    · have hnamed : ((rawTablePk id).1, (f x).id) = rawTablePk id := Prod.ext rfl ((hf x).trans hid)
      exact absurd hnamed hplace
    · exact hx
  · rwa [hother t ht] at hs

theorem mem_of_fillRow {r : RawRow} (h : fillRow db id = some r) :
    r ∈ (db.raw (rawTablePk id).1).rows ∧ r.id = (rawTablePk id).2 :=
  ⟨List.mem_of_find?_eq_some h, by simpa using List.find?_some h⟩

/-- The primary key: the row an id names is the only one with that id. -/
theorem eq_of_fillRow {r s : RawRow} (h : fillRow db id = some r)
    (hs : s ∈ (db.raw (rawTablePk id).1).rows) (hid : s.id = (rawTablePk id).2) : s = r := by
  obtain ⟨hr, hrid⟩ := mem_of_fillRow h
  exact (db.raw (rawTablePk id).1).eq_of_clash (RawRow.clash_symm _) hs hr
    (.inl (hid.trans hrid.symm))

theorem fillRow_updateRaw {f : RawRow → RawRow} {r : RawRow} (hf : ∀ s, (f s).id = s.id)
    (hr : fillRow db id = some r) (h : updateRaw db id f = some db') :
    fillRow db' id = some (f r) := by
  obtain ⟨-, -, hrows⟩ := of_updateRaw h
  rw [fillRow, hrows, List.find?_map]
  have hpred : (fun s : RawRow => decide (s.id = (rawTablePk id).2)) ∘
      (fun s => if s.id = (rawTablePk id).2 then f s else s) =
        fun s => decide (s.id = (rawTablePk id).2) := by
    funext s
    by_cases hs : s.id = (rawTablePk id).2
    · simp [hs, hf]
    · simp [hs]
  have hfind : (db.raw (rawTablePk id).1).rows.find?
      (fun s => decide (s.id = (rawTablePk id).2)) = some r := hr
  rw [hpred, hfind, Option.map_some, if_pos (mem_of_fillRow hr).2]

/-! ## Statements on the attribution -/

/-- Setting or clearing the whole-fill attribution leaves the splits and the other fills; it is set
only to a trade that no split of the fill names. -/
theorem of_setWholeAttribution {trade : Option ℤ}
    (h : setWholeAttribution db k trade = some db') :
    db.SameFills db' ∧ (∀ k', db'.splitsAt k' = db.splitsAt k') ∧
      (∀ k', k' ≠ k → db'.wholeAt k' = db.wholeAt k') ∧
      (trade = none → db'.wholeAt k = []) ∧
      ∀ t, trade = some t → ∀ x ∈ db.splitsAt k, x.tradeId ≠ t := by
  cases trade with
  | none =>
    obtain rfl := Option.some.inj h
    refine ⟨⟨rfl, rfl⟩, fun k' => ExecutionDb.splitsAt_deleteWhole, fun k' hk => ?_, fun _ => ?_,
      by simp⟩
    · rw [ExecutionDb.wholeAt_deleteWhole, if_neg hk]
    · rw [ExecutionDb.wholeAt_deleteWhole, if_pos rfl]
  | some t =>
    obtain ⟨hsame, hsplits, hwhole, htrade⟩ := ExecutionDb.of_upsertWhole h
    refine ⟨hsame, hsplits, hwhole, by simp, fun t' ht => ?_⟩
    obtain rfl := Option.some.inj ht
    exact htrade

/-- The split row of a fill for a trade and a quantity. -/
def splitRow (k : FillKey) (s : ℤ × ℚ) : TradeExecutionRow := ⟨k.1, k.2, s.1, some s.2⟩

theorem of_insertSplits {inserts : List (ℤ × ℚ)} (h : insertSplits k db inserts = some db') :
    db.SameFills db' ∧ (∀ k', db'.wholeAt k' = db.wholeAt k') ∧
      ∀ k', db'.splitsAt k' =
        if k' = k then db.splitsAt k' ++ inserts.map (splitRow k) else db.splitsAt k' := by
  induction inserts generalizing db with
  | nil =>
    obtain rfl := Option.some.inj h
    refine ⟨⟨rfl, rfl⟩, fun _ => rfl, fun k' => ?_⟩
    simp
  | cons s inserts ih =>
    rw [insertSplits, List.foldlM_cons] at h
    obtain ⟨db₁, h₁, h⟩ := Option.bind_eq_some_iff.1 h
    obtain ⟨hsame₁, hwhole₁, hsplits₁⟩ := ExecutionDb.of_insertSplit h₁
    obtain ⟨hsame, hwhole, hsplits⟩ := ih h
    refine ⟨⟨hsame.1.trans hsame₁.1, hsame.2.trans hsame₁.2⟩,
      fun k' => (hwhole k').trans (hwhole₁ k'), fun k' => ?_⟩
    rw [hsplits, hsplits₁]
    split_ifs with hk
    · rw [List.append_assoc]
      rfl
    · rfl

/-- The quantity of a split. -/
def SplitItem.size : SplitItem → Option ℚ
  | .notDict => none
  | .dict _ q => q.finite

theorem size_of_parseSplit {account : String} {item : SplitItem} {s : ℤ × ℚ}
    (h : parseSplit db account item = some s) : item.size = some s.2 := by
  unfold parseSplit at h
  split at h
  · split at h
    · cases h
    · rename_i hq
      split_ifs at h
      obtain rfl := Option.some.inj h
      exact hq
  · cases h

theorem sizes_of_parseSplits {account : String} {items : List SplitItem} {inserts : List (ℤ × ℚ)}
    (h : items.mapM (parseSplit db account) = some inserts) :
    inserts.map Prod.snd = items.filterMap SplitItem.size := by
  induction items generalizing inserts with
  | nil =>
    obtain rfl := Option.some.inj h
    rfl
  | cons item items ih =>
    rw [List.mapM_cons] at h
    obtain ⟨s, hs, h⟩ := Option.bind_eq_some_iff.1 h
    obtain ⟨rest, hrest, h⟩ := Option.bind_eq_some_iff.1 h
    obtain rfl := Option.some.inj h
    rw [List.map_cons, ih hrest, List.filterMap_cons_some (size_of_parseSplit hs)]

theorem inserts_eq_nil_iff {account : String} {items : List SplitItem} {inserts : List (ℤ × ℚ)}
    (h : items.mapM (parseSplit db account) = some inserts) : inserts = [] ↔ items = [] := by
  cases items with
  | nil =>
    obtain rfl := Option.some.inj h
    simp
  | cons item items =>
    rw [List.mapM_cons] at h
    obtain ⟨s, -, h⟩ := Option.bind_eq_some_iff.1 h
    obtain ⟨rest, -, h⟩ := Option.bind_eq_some_iff.1 h
    obtain rfl := Option.some.inj h
    simp

/-- Splits that are applied replace those of the fill and, unless they are none, take the place of
its whole-fill attribution; the other fills stay as they are. -/
theorem of_applyFillSplits {items : List SplitItem} (h : applyFillSplits db id items = some db') :
    ∃ r, fillRow db id = some r ∧ r.fillKey.2 ≠ "" ∧ db.SameFills db' ∧
      (∀ k, k ≠ r.fillKey → db'.splitsAt k = db.splitsAt k ∧ db'.wholeAt k = db.wholeAt k) ∧
      (db'.splitsAt r.fillKey).filterMap TradeExecutionRow.splitQuantity =
        items.filterMap SplitItem.size ∧
      (items = [] → db'.splitsAt r.fillKey = []) ∧
      (items ≠ [] → db'.wholeAt r.fillKey = []) := by
  unfold applyFillSplits at h
  split at h
  · cases h
  rename_i r hr
  dsimp only at h
  split_ifs at h with hexec
  split at h
  · cases h
  rename_i inserts hparse
  have hsizes := sizes_of_parseSplits hparse
  have hnil := inserts_eq_nil_iff hparse
  refine ⟨r, hr, hexec, ?_⟩
  split_ifs at h with hnodup hsum hempty
  · -- no splits: those that stood are gone
    obtain rfl := Option.some.inj h
    obtain rfl := hnil.1 hempty
    have hgone : (db.deleteAttributions (ExecutionDb.isSplitOf r.fillKey)).splitsAt r.fillKey =
        [] := by
      rw [ExecutionDb.splitsAt_deleteSplits, if_pos rfl]
    refine ⟨⟨rfl, rfl⟩, fun k hk => ⟨?_, ExecutionDb.wholeAt_deleteSplits⟩, ?_, fun _ => hgone,
      fun hne => absurd rfl hne⟩
    · rw [ExecutionDb.splitsAt_deleteSplits, if_neg hk]
    · rw [hgone]
      rfl
  · obtain ⟨hsame, hwhole, hsplits⟩ := of_insertSplits h
    refine ⟨hsame, fun k hk => ⟨?_, ?_⟩, ?_, fun hitems => absurd (hnil.2 hitems) hempty,
      fun _ => ?_⟩
    · rw [hsplits, if_neg hk, ExecutionDb.splitsAt_deleteWhole, ExecutionDb.splitsAt_deleteSplits,
        if_neg hk]
    · rw [hwhole, ExecutionDb.wholeAt_deleteWhole, if_neg hk, ExecutionDb.wholeAt_deleteSplits]
    · rw [hsplits, if_pos rfl, ExecutionDb.splitsAt_deleteWhole, ExecutionDb.splitsAt_deleteSplits,
        if_pos rfl, List.nil_append, List.filterMap_map, ← hsizes]
      exact congrFun (List.filterMap_eq_map (f := Prod.snd)) inserts
    · rw [hwhole, ExecutionDb.wholeAt_deleteWhole, if_pos rfl]

/-- Splits that are applied passed the writer's check against the row they are applied to. -/
theorem checked_of_applyFillSplits {items : List SplitItem} {r : RawRow}
    (h : applyFillSplits db id items = some db') (hr : fillRow db id = some r) :
    items = [] ∨
      sumMismatch (items.filterMap SplitItem.size).sum (normalizedSignedQty r) = false := by
  unfold applyFillSplits at h
  rw [hr] at h
  dsimp only at h
  split_ifs at h
  split at h
  · cases h
  rename_i inserts hparse
  rw [← sizes_of_parseSplits hparse]
  split_ifs at h with hnodup hsum hempty
  · exact .inl ((inserts_eq_nil_iff hparse).1 hempty)
  · exact .inr (Bool.eq_false_iff.2 fun hmismatch => hsum ⟨hempty, hmismatch⟩)

/-- Dropping the attribution of a fill leaves the raw rows and every other fill. -/
theorem of_dropAttributionIfLast (db : ExecutionDb) (k : FillKey) :
    db.SameFills (dropAttributionIfLast db k).1 ∧
      (∀ k', (dropAttributionIfLast db k).1.splitsAt k' = db.splitsAt k' ∨
        (dropAttributionIfLast db k).1.splitsAt k' = []) ∧
      ∀ k', ∀ x ∈ (dropAttributionIfLast db k).1.wholeAt k', x ∈ db.wholeAt k' := by
  unfold dropAttributionIfLast
  dsimp only
  split_ifs
  · exact ⟨⟨rfl, rfl⟩, fun k' => .inl rfl, fun k' x hx => hx⟩
  · refine ⟨⟨rfl, rfl⟩, fun k' => ?_, fun k' x hx => ?_⟩
    · show (db.deleteAttributions fun x => decide (x.key = k)).splitsAt k' = _ ∨ _
      rw [ExecutionDb.splitsAt_deleteAttributions]
      by_cases hk : k' = k
      · right
        refine List.filter_eq_nil_iff.2 fun x hx => ?_
        simp [(ExecutionDb.mem_splitsAt.1 hx).2.1, hk]
      · left
        refine List.filter_eq_self.2 fun x hx => ?_
        simp [(ExecutionDb.mem_splitsAt.1 hx).2.1, hk]
    · have hx : x ∈ (db.deleteAttributions fun x => decide (x.key = k)).wholeAt k' := hx
      rw [ExecutionDb.wholeAt_deleteAttributions] at hx
      exact List.mem_of_mem_filter hx

/-- Deleting a raw row leaves the other rows, and of every attribution all or nothing. -/
theorem of_deleteRaw (db : ExecutionDb) (id : ℤ) (r : RawRow) :
    (∀ t, ∀ s ∈ ((deleteRaw db id r).1.raw t).rows, s ∈ (db.raw t).rows) ∧
      (∀ k, (deleteRaw db id r).1.splitsAt k = db.splitsAt k ∨
        (deleteRaw db id r).1.splitsAt k = []) ∧
      ∀ k, ∀ x ∈ (deleteRaw db id r).1.wholeAt k, x ∈ db.wholeAt k := by
  unfold deleteRaw
  generalize rawTablePk id = place
  dsimp only
  generalize hdb₁ : withRaw db place.1 ((db.raw place.1).delete fun s => s.id = place.2) = db₁
  have hsame : SameAttribution db db₁ := hdb₁ ▸ sameAttribution_withRaw
  obtain ⟨hraw, hsplits, hwhole⟩ := of_dropAttributionIfLast db₁ r.fillKey
  refine ⟨fun t s hs => ?_, fun k => ?_, fun k x hx => ?_⟩
  · rw [hraw.1, ← hdb₁] at hs
    by_cases ht : t = place.1
    · rw [ht, raw_withRaw] at hs
      rw [ht]
      exact List.mem_of_mem_filter hs
    · rwa [raw_withRaw_of_ne ht] at hs
  · rw [← hsame.splitsAt]
    exact hsplits k
  · rw [← hsame.wholeAt]
    exact hwhole k x hx

/-! ## The writers, part by part -/

/-- The trade and the opportunity that a body names for the whole fill. -/
def directTrade (tradeId strategyOpportunityId : BodyId) : Option ℤ × Option ℤ :=
  ((directInstance tradeId strategyOpportunityId).getD (true, none, none)).2

/-- The splits part of a body: a list is applied, none sent changes nothing. -/
def AppliesSplits (db : ExecutionDb) (id : ℤ) (splits : SplitsField) (db' : ExecutionDb) : Prop :=
  (∃ items, splits = .list items ∧ applyFillSplits db id items = some db') ∨
    (splits = .absent ∨ splits = .null) ∧ db' = db

theorem appliesSplits_of_eq {splits : SplitsField}
    (h : (match splits with
      | .list items => applyFillSplits db id items
      | .notList => none
      | _ => some db) = some db') : AppliesSplits db id splits db' := by
  cases splits with
  | absent => exact .inr ⟨.inl rfl, (Option.some.inj h).symm⟩
  | null => exact .inr ⟨.inr rfl, (Option.some.inj h).symm⟩
  | notList => cases h
  | list items => exact .inl ⟨items, rfl, h⟩

theorem AppliesSplits.trades {splits : SplitsField} (h : AppliesSplits db id splits db') :
    db'.trades = db.trades := by
  rcases h with ⟨items, -, happly⟩ | ⟨-, rfl⟩
  · obtain ⟨r, -, -, hsame, -⟩ := of_applyFillSplits happly
    exact hsame.2
  · rfl

/-- The raw part of an update body. -/
def UpdatesRow (db : ExecutionDb) (id : ℤ) (body : UpdateBody) (db' : ExecutionDb) : Prop :=
  body.setsColumns = true ∧ updateRaw db id body.edit = some db' ∨
    body.setsColumns = false ∧ db' = db

theorem UpdatesRow.sameAttribution {body : UpdateBody} (h : UpdatesRow db id body db') :
    SameAttribution db db' := by
  rcases h with ⟨-, h⟩ | ⟨-, rfl⟩
  exacts [(of_updateRaw h).1, SameAttribution.refl _]

/-- A body that sets no column leaves the row. -/
theorem edit_of_setsColumns_eq_false {body : UpdateBody} (h : body.setsColumns = false)
    (r : RawRow) : body.edit r = r := by
  have hcolumn : ∀ {α : Type} (f : Field α) (old : Option α), f.present = false →
      f.column old = old := by
    intro α f old hf
    cases f with
    | absent => rfl
    | null => cases hf
    | value a => cases hf
  simp only [UpdateBody.setsColumns, decide_eq_false_iff_not, not_or, Bool.not_eq_true] at h
  obtain ⟨ha, hside, hq, hsource, -⟩ := h
  simp only [UpdateBody.edit, hcolumn _ _ ha, hcolumn _ _ hside, hcolumn _ _ hq,
    hcolumn _ _ hsource]

theorem UpdatesRow.fillRow {body : UpdateBody} {r : RawRow} (h : UpdatesRow db id body db')
    (hr : fillRow db id = some r) : Portfolio.fillRow db' id = some (body.edit r) := by
  rcases h with ⟨-, h⟩ | ⟨hcols, rfl⟩
  · exact fillRow_updateRaw (fun _ => rfl) hr h
  · rw [edit_of_setsColumns_eq_false hcols, hr]

/-- The execution id of a hand insert has no spaces around it. -/
theorem strip_newExecId (body : InsertBody) (uuidHex : UuidHex) :
    strip (body.newExecId uuidHex) = body.newExecId uuidHex := by
  unfold InsertBody.newExecId stripOr
  split_ifs
  · apply strip_of_forall
    intro c hc
    rw [String.toList_append, List.mem_append] at hc
    rcases hc with hc | hc
    · have hall : "manual_".toList.all (fun c => !isSpace c) = true := by decide
      simpa using List.all_eq_true.1 hall c hc
    · exact UuidHex.isSpace_of_mem hc
  · exact strip_strip _

theorem fillKey_insertRow (body : InsertBody) (seqId : SeqId) (uuidHex : UuidHex) :
    (body.row seqId uuidHex).fillKey = body.wholeKey uuidHex := by
  simp only [RawRow.fillKey, InsertBody.wholeKey, InsertBody.row, textOrEmpty, Option.getD_some,
    strip_newExecId]

theorem rawTablePk_tws {n : ℤ} (h : 0 < n) (hlt : n < journalIdOffset) :
    rawTablePk (-n) = (.tws, n) := by
  rw [rawTablePk, if_neg (by omega), if_neg (by omega), neg_neg]

theorem rawTablePk_journal {n : ℤ} (h : 0 < n) :
    rawTablePk (-(journalIdOffset + n)) = (.journal, n) := by
  have hoffset : 0 < journalIdOffset := by decide
  have hback : - -(journalIdOffset + n) - journalIdOffset = n := by omega
  rw [rawTablePk, if_neg (by omega), if_pos (by omega), hback]

/-- The new execution id names the table and the id of the row just inserted. -/
theorem rawTablePk_newId (body : InsertBody) (seqId : SeqId) :
    rawTablePk (body.newId seqId) = (body.table, seqId.1) := by
  unfold InsertBody.newId
  split_ifs with ht
  · rw [rawTablePk_journal seqId.2.1, ht]
  · have htws : body.table = .tws := by
      unfold InsertBody.table at ht ⊢
      split_ifs at ht ⊢
      · exact absurd rfl ht
      · rfl
    rw [rawTablePk_tws seqId.2.1 seqId.2.2, htws]

theorem fillRow_insertRaw {body : InsertBody} {seqId : SeqId} {uuidHex : UuidHex}
    (h : insertRaw db body.table (body.row seqId uuidHex) = some db') :
    fillRow db' (body.newId seqId) = some (body.row seqId uuidHex) := by
  obtain ⟨-, hrows, hfree, -⟩ := of_insertRaw h
  have hnone : (db.raw body.table).rows.find? (fun r => decide (r.id = seqId.1)) = none := by
    refine List.find?_eq_none.2 fun r hr hid => ?_
    exact hfree r hr (.inl (of_decide_eq_true hid))
  rw [fillRow, rawTablePk_newId]
  dsimp only
  rw [hrows, List.find?_append, hnone]
  simp [InsertBody.row]

/-- A hand insert that goes through: the raw row, then its trade, then its splits. -/
theorem of_insertOneExecution {seqId : SeqId} {uuidHex : UuidHex} {body : InsertBody}
    (h : insertOneExecution db seqId uuidHex body = some (db', id)) :
    ∃ db₁ db₂, insertRaw db body.table (body.row seqId uuidHex) = some db₁ ∧
      ((directTrade body.tradeId body.strategyOpportunityId).1 = none ∧ db₂ = db₁ ∨
        ∃ t, (directTrade body.tradeId body.strategyOpportunityId).1 = some t ∧
          instanceProblem db t (body.wholeKey uuidHex).1
            (directTrade body.tradeId body.strategyOpportunityId).2 = none ∧
          setWholeAttribution db₁ (body.wholeKey uuidHex) (some t) = some db₂) ∧
      AppliesSplits db₂ (body.newId seqId) body.fillSplits db' := by
  unfold insertOneExecution at h
  split_ifs at h
  split at h
  · cases h
  rename_i touches trade opportunity hdirect
  have hd : directTrade body.tradeId body.strategyOpportunityId = (trade, opportunity) := by
    rw [directTrade, hdirect]
    rfl
  split_ifs at h
  obtain ⟨db₁, h₁, h⟩ := Option.bind_eq_some_iff.1 h
  obtain ⟨db₂, h₂, h⟩ := Option.bind_eq_some_iff.1 h
  obtain ⟨db₃, h₃, heq⟩ := Option.map_eq_some_iff.1 h
  obtain ⟨rfl, -⟩ := Prod.mk.inj heq
  refine ⟨db₁, db₂, h₁, ?_, appliesSplits_of_eq h₃⟩
  rw [hd]
  cases trade with
  | none => exact .inl ⟨rfl, (Option.some.inj h₂).symm⟩
  | some t =>
    right
    dsimp only at h₂
    split_ifs at h₂ with hproblem
    refine ⟨t, rfl, ?_, h₂⟩
    -- the problem is looked for in the trades, which the insert left
    have htrades : db₁.trades = db.trades := (of_insertRaw h₁).1.1
    rw [not_not, instanceProblem, htrades] at hproblem
    exact hproblem

/-- An update that goes through: the raw row, then the splits, then the trade, then the commission's
execution id. -/
theorem of_updateOneExecution {body : UpdateBody} (h : updateOneExecution db id body = some db') :
    ∃ r db₁ db₂ db₃, fillRow db id = some r ∧
      UpdatesRow db id body db₁ ∧ AppliesSplits db₁ id body.fillSplits db₂ ∧
      (db₃ = db₂ ∧ (directTrade body.tradeId body.strategyOpportunityId).1 = none ∨
        r.fillKey.2 ≠ "" ∧
        body.wholeProblem db₂ (body.newAccount r.fillKey.1, r.fillKey.2)
          (directTrade body.tradeId body.strategyOpportunityId).2
          (directTrade body.tradeId body.strategyOpportunityId).1 = false ∧
        setWholeAttribution db₂ (body.newAccount r.fillKey.1, r.fillKey.2)
          (directTrade body.tradeId body.strategyOpportunityId).1 = some db₃) ∧
      (body.commission = true ∧ updateRaw db₃ id (manualExecId id) = some db' ∨
        body.commission = false ∧ db' = db₃) := by
  unfold updateOneExecution at h
  dsimp only at h
  split at h
  · cases h
  split at h
  · cases h
  rename_i r hr
  split at h
  · cases h
  split at h
  · cases h
  obtain ⟨db₁, h₁, h⟩ := Option.bind_eq_some_iff.1 h
  obtain ⟨db₂, h₂, h⟩ := Option.bind_eq_some_iff.1 h
  obtain ⟨db₃, h₃, h₄⟩ := Option.bind_eq_some_iff.1 h
  refine ⟨r, db₁, db₂, db₃, hr, ?_, appliesSplits_of_eq h₂, ?_, ?_⟩
  · split_ifs at h₁ with hcols
    · exact .inl ⟨hcols, h₁⟩
    · exact .inr ⟨by simpa using hcols, (Option.some.inj h₁).symm⟩
  · split_ifs at h₃ with htouches hrefuse
    · right
      obtain ⟨hexec, hproblem⟩ := not_or.1 hrefuse
      exact ⟨hexec, Bool.eq_false_of_not_eq_true hproblem, h₃⟩
    · left
      refine ⟨(Option.some.inj h₃).symm, ?_⟩
      -- a trade that is named touches the attribution
      unfold directTrade
      unfold directInstance at htouches ⊢
      split_ifs at htouches ⊢ with hbad
      · rfl
      · have habsent : body.tradeId = .absent := by simpa using htouches
        rw [Option.getD_some, habsent]
        rfl
  · split_ifs at h₄ with hcomm
    · exact .inl ⟨hcomm, h₄⟩
    · exact .inr ⟨by simpa using hcomm, (Option.some.inj h₄).symm⟩

/-- The fill an update leaves its raw row with: a null account empties the account of the key,
everything else is the account the writer goes on with. -/
theorem fillKey_edit (body : UpdateBody) (r : RawRow) :
    (body.edit r).fillKey = (body.newAccount r.fillKey.1, r.fillKey.2) ∨
      body.accountId = .null ∧ (body.edit r).fillKey = ("", r.fillKey.2) := by
  cases ha : body.accountId with
  | absent => simp [RawRow.fillKey, UpdateBody.edit, UpdateBody.newAccount, ha, Field.column]
  | null => simp [RawRow.fillKey, UpdateBody.edit, ha, Field.column, textOrEmpty]
  | value a =>
    simp [RawRow.fillKey, UpdateBody.edit, UpdateBody.newAccount, ha, Field.column, textOrEmpty]

/-- A patch that goes through: splits and no trade, or a trade and no splits left standing. -/
theorem of_patchExecution {fields : PatchFields}
    (h : patchExecution db id fields = .ok db') :
    ∃ r db₁, fillRow db id = some r ∧
      (fields.fillSplits = none ∧ db₁ = db ∧
          (fields.tradeId.toOption ≠ none → db.splitsAt r.fillKey = []) ∨
        ∃ items, fields.fillSplits = some items ∧ applyFillSplits db id items = some db₁ ∧
          (fields.tradeId.toOption ≠ none → items = [])) ∧
      (db' = db₁ ∨ setWholeAttribution db₁ r.fillKey fields.tradeId.toOption = some db') := by
  unfold patchExecution at h
  dsimp only at h
  split at h
  · cases h
  split at h
  · cases h
  split at h
  · cases h
  rename_i hboth
  split at h
  · cases h
  rename_i r hr
  split at h
  · cases h
  split at h
  · cases h
  split at h
  · cases h
  rename_i hconflict
  split at h
  · cases h
  rename_i db₁ hsplits
  refine ⟨r, db₁, hr, ?_, ?_⟩
  · cases hf : fields.fillSplits with
    | none =>
      rw [hf] at hsplits
      refine .inl ⟨rfl, (Option.some.inj hsplits).symm, fun ht => ?_⟩
      by_contra hne
      exact hconflict ⟨Option.isSome_iff_ne_none.2 ht, hf, hne⟩
    | some items =>
      rw [hf] at hsplits
      refine .inr ⟨items, rfl, hsplits, fun ht => ?_⟩
      by_contra hne
      exact hboth ⟨by rw [hf]; exact hne, ht⟩
  · split at h
    · split at h
      · cases h
      · rename_i hset
        obtain rfl := Except.ok.inj h
        exact .inr hset
    · exact .inl (Except.ok.inj h).symm

/-- An import leaves the trades and the attributions. -/
theorem sameAttribution_writeImportRow {r : ImportRow} (h : writeImportRow db r = some db') :
    SameAttribution db db' := by
  unfold writeImportRow at h
  split_ifs at h
  · obtain ⟨rows, -, rfl⟩ := Option.map_eq_some_iff.1 h
    exact sameAttribution_withRaw
  · obtain rfl := Option.some.inj h
    exact SameAttribution.refl db
  · exact (of_insertRaw h).1

theorem sameAttribution_import {rows : List ImportRow}
    (h : writeAccountExecutionsToDb db rows = some db') : SameAttribution db db' := by
  unfold writeAccountExecutionsToDb at h
  induction rows generalizing db with
  | nil =>
    obtain rfl := Option.some.inj h
    exact SameAttribution.refl db
  | cons r rows ih =>
    rw [List.foldlM_cons] at h
    obtain ⟨db₁, h₁, h⟩ := Option.bind_eq_some_iff.1 h
    exact (sameAttribution_writeImportRow h₁).trans (ih h)

theorem of_setTrades {trades : Sql.Table TradeRow.tradeId} (h : setTrades db trades = some db') :
    db'.raw = db.raw ∧ db'.tradeExecution = db.tradeExecution := by
  unfold setTrades at h
  split at h
  · obtain rfl := Option.some.inj h
    exact ⟨rfl, rfl⟩
  · cases h

end Portfolio
