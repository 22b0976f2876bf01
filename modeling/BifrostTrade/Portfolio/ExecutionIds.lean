import BifrostTrade.Portfolio.ExecutionWriters

/-!
# Execution ids

The view `executions` of `persistence/postgres/brokerage_views.py` packs the keys of three raw
tables into one signed integer, and `_raw_table_pk_for_account_executions_id` takes it apart.  The
ranges of the TWS and the journal rows meet at the journal offset, which no sequence stops at: the
two agree exactly while the view shows no TWS row from that key on (`idsDecode_iff`).
-/

namespace Portfolio

open Py Persistence

/-! ## The view -/

/-- The `account_executions_id` of a raw row. -/
def accountExecutionsIdOf : RawTable → ℤ → ℤ
  | .flex, pk => pk
  | .tws, pk => -pk
  | .journal, pk => -(journalIdOffset + pk)

/-- A row of the view: where it came from, and its columns. -/
structure ViewRow where
  table : RawTable
  row : RawRow
  deriving DecidableEq

/-- The id of the row in the view. -/
def ViewRow.accountExecutionsId (v : ViewRow) : ℤ := accountExecutionsIdOf v.table v.row.id

/-- Whether Flex has the execution id of a row. -/
def flexHas (db : ExecutionDb) (r : RawRow) : Bool :=
  (db.raw .flex).rows.any fun f => f.execId = r.execId ∧ textOrEmpty f.execId ≠ ""

/-- `executions`: a TWS row stands until Flex has its execution id. -/
def executionsView (db : ExecutionDb) : List ViewRow :=
  (db.raw .flex).rows.map (ViewRow.mk .flex) ++
    ((db.raw .tws).rows.filter fun r => !flexHas db r).map (ViewRow.mk .tws) ++
    (db.raw .journal).rows.map (ViewRow.mk .journal)

/-- The whole-fill attributions that `_env_attributed` joins to a row; `none` where there is
none. -/
def joinedAttributions (db : ExecutionDb) (r : RawRow) : List (Option TradeExecutionRow) :=
  let found := db.tradeExecution.rows.filter fun x =>
    some x.accountId = r.accountId ∧ some x.execId = r.execId ∧ x.splitQuantity = none
  if found = [] then [none] else found.map some

/-- The view of one environment. -/
def envExecutionsView (db : ExecutionDb) : List (ViewRow × Option TradeExecutionRow) :=
  (executionsView db).flatMap fun v => (joinedAttributions db v.row).map fun x => (v, x)

/-- Two raw rows of one fill; a row without an execution id is of no fill. -/
def Twins (r s : RawRow) : Prop :=
  r.accountId = s.accountId ∧ r.execId = s.execId ∧ textOrEmpty r.execId ≠ ""

instance : DecidableRel Twins := fun _ _ => inferInstanceAs (Decidable (_ ∧ _ ∧ _))

/-- The ids tell the rows of the view apart and lead back to them, and a fill that TWS and Flex have
is in the view once. -/
structure IdsDecode (db : ExecutionDb) : Prop where
  distinct : ((executionsView db).map ViewRow.accountExecutionsId).Nodup
  decode : ∀ v ∈ executionsView db, rawTablePk v.accountExecutionsId = (v.table, v.row.id)
  once : ∀ t ∈ (db.raw .tws).rows, ∀ f ∈ (db.raw .flex).rows, Twins t f →
    ((executionsView db).filter fun v => Twins v.row f) = [⟨.flex, f⟩]

/-- The keys of the TWS rows that the view shows are below the journal offset. -/
def TwsBelowOffset (db : ExecutionDb) : Prop :=
  ∀ t ∈ (db.raw .tws).rows, flexHas db t = false → t.id < journalIdOffset

/-- No journal row is of a fill that TWS and Flex both have. -/
def JournalApart (db : ExecutionDb) : Prop :=
  ∀ t ∈ (db.raw .tws).rows, ∀ f ∈ (db.raw .flex).rows, Twins t f →
    ∀ j ∈ (db.raw .journal).rows, ¬ Twins j f

/-! ## Rows of the view -/

variable {db : ExecutionDb}

theorem flexHas_iff {r : RawRow} :
    flexHas db r = true ↔
      ∃ f ∈ (db.raw .flex).rows, f.execId = r.execId ∧ textOrEmpty f.execId ≠ "" := by
  simp [flexHas]

theorem mem_executionsView {v : ViewRow} :
    v ∈ executionsView db ↔
      v.row ∈ (db.raw v.table).rows ∧ (v.table = .tws → flexHas db v.row = false) := by
  obtain ⟨t, r⟩ := v
  cases t <;> simp [executionsView]

/-- The rows of a raw table have different keys. -/
theorem ids_nodup (db : ExecutionDb) (t : RawTable) : ((db.raw t).rows.map RawRow.id).Nodup := by
  rw [List.Nodup, List.pairwise_map]
  exact (db.raw t).apart.imp fun hclash hid => hclash (.inl hid)

theorem executionsView_nodup (db : ExecutionDb) :
    ((executionsView db).map fun v => (v.table, v.row.id)).Nodup := by
  have hpart : ∀ (t : RawTable) (rows : List RawRow), (rows.map RawRow.id).Nodup →
      ((rows.map (ViewRow.mk t)).map fun v => (v.table, v.row.id)).Nodup := by
    intro t rows hrows
    rw [List.map_map]
    have hpair := hrows.map (Prod.mk_right_injective t)
    rwa [List.map_map] at hpair
  have htws := (ids_nodup db .tws).sublist
    ((List.filter_sublist (p := fun r => !flexHas db r)).map RawRow.id)
  rw [executionsView, List.map_append, List.map_append, List.nodup_append, List.nodup_append]
  refine ⟨⟨hpart _ _ (ids_nodup db .flex), hpart _ _ htws, ?_⟩, hpart _ _ (ids_nodup db .journal),
    ?_⟩
  · intro a ha b hb heq
    subst heq
    simp only [List.map_map, List.mem_map, Function.comp_apply] at ha hb
    obtain ⟨r, -, rfl⟩ := ha
    obtain ⟨s, -, hs⟩ := hb
    simp at hs
  · intro a ha b hb heq
    subst heq
    simp only [List.map_map, List.mem_append, List.mem_map, Function.comp_apply] at ha hb
    obtain ⟨s, -, hs⟩ := hb
    rcases ha with ⟨r, -, hr⟩ | ⟨r, -, hr⟩ <;> simp [← hs] at hr

theorem length_joinedAttributions (db : ExecutionDb) (r : RawRow) :
    (joinedAttributions db r).length = 1 := by
  unfold joinedAttributions
  dsimp only
  split_ifs with hnone
  · rfl
  · rw [List.length_map]
    have hapart := db.tradeExecution.apart.sublist (List.filter_sublist (p := fun x =>
      some x.accountId = r.accountId ∧ some x.execId = r.execId ∧ x.splitQuantity = none))
    generalize hfound : (db.tradeExecution.rows.filter fun x =>
      some x.accountId = r.accountId ∧ some x.execId = r.execId ∧ x.splitQuantity = none) = found
      at hnone hapart
    rcases found with _ | ⟨x, _ | ⟨y, rest⟩⟩
    · exact absurd rfl hnone
    · rfl
    · -- two whole attributions of one fill break the unique index
      have hmem : ∀ z ∈ x :: y :: rest, some z.accountId = r.accountId ∧
          some z.execId = r.execId ∧ z.splitQuantity = none := by
        intro z hz
        rw [← hfound] at hz
        exact of_decide_eq_true (List.mem_filter.1 hz).2
      obtain ⟨hxa, hxe, hxs⟩ := hmem x (by simp)
      obtain ⟨hya, hye, hys⟩ := hmem y (by simp)
      refine absurd ?_ ((List.pairwise_cons.1 hapart).1 y (by simp))
      exact ⟨Prod.ext (Option.some.inj (hxa.trans hya.symm)) (Option.some.inj (hxe.trans hye.symm)),
        .inr ⟨hxs, hys⟩⟩

/-- The join neither drops a row nor repeats one. -/
theorem map_fst_envExecutionsView (db : ExecutionDb) :
    (envExecutionsView db).map Prod.fst = executionsView db := by
  unfold envExecutionsView
  rw [List.map_flatMap]
  have hone : ∀ v : ViewRow,
      ((joinedAttributions db v.row).map fun x => (v, x)).map Prod.fst = [v] := by
    intro v
    obtain ⟨x, hx⟩ := List.length_eq_one_iff.1 (length_joinedAttributions db v.row)
    rw [hx]
    rfl
  simp only [hone, List.flatMap_singleton']

/-! ## Decoding -/

/-- Below the offset the id of a row leads back to it. -/
theorem rawTablePk_accountExecutionsIdOf {t : RawTable} {pk : ℤ} (hpk : 0 < pk)
    (htws : t = .tws → pk < journalIdOffset) :
    rawTablePk (accountExecutionsIdOf t pk) = (t, pk) := by
  have hoffset : journalIdOffset = 1000000000 := rfl
  cases t with
  | flex => simp [rawTablePk, accountExecutionsIdOf, hpk]
  | tws =>
    have hlt := htws rfl
    rw [rawTablePk, accountExecutionsIdOf, if_neg (by omega), if_neg (by omega), neg_neg]
  | journal =>
    rw [rawTablePk, accountExecutionsIdOf, if_neg (by omega), if_pos (by omega)]
    congr 1
    omega

/-- From the offset on the id of a TWS row leads to the journal. -/
theorem rawTablePk_tws_of_offset_le {pk : ℤ} (h : journalIdOffset ≤ pk) :
    (rawTablePk (accountExecutionsIdOf .tws pk)).1 = .journal := by
  have hoffset : journalIdOffset = 1000000000 := rfl
  rw [rawTablePk, accountExecutionsIdOf, if_neg (by omega), if_pos (by omega)]

/-- A fill that TWS and Flex have is in the view as the Flex row, and as its journal rows. -/
theorem filter_twins {t f : RawRow} (hf : f ∈ (db.raw .flex).rows) (h : Twins t f) :
    ((executionsView db).filter fun v => Twins v.row f) =
      ⟨.flex, f⟩ :: ((db.raw .journal).rows.filter fun j => Twins j f).map
        (ViewRow.mk .journal) := by
  have hexec : textOrEmpty f.execId ≠ "" := h.2.1 ▸ h.2.2
  have hflex : ((db.raw .flex).rows.filter fun r => Twins r f) = [f] := by
    have hsame : ∀ r ∈ (db.raw .flex).rows, Twins r f ↔ r = f := by
      intro r hr
      refine ⟨fun hrf => ?_, fun hrf => by rw [hrf]; exact ⟨rfl, rfl, hexec⟩⟩
      exact (db.raw .flex).eq_of_clash (RawRow.clash_symm .flex) hr hf
        (.inr (.inl ⟨hrf.2.2, hrf.2.1⟩))
    have hnodup : (db.raw .flex).rows.Nodup := (ids_nodup db .flex).of_map
    rw [List.filter_congr fun r hr => decide_eq_decide.2 (hsame r hr)]
    have hcount := hnodup.filter (fun r => decide (r = f))
    refine List.perm_singleton.1 ((List.perm_ext_iff_of_nodup hcount (by simp)).2 fun r => ?_)
    simp only [List.mem_filter, decide_eq_true_eq, List.mem_singleton]
    exact ⟨fun hr => hr.2, fun hr => ⟨hr ▸ hf, hr⟩⟩
  have htws : (((db.raw .tws).rows.filter fun r => !flexHas db r).filter
      fun r => Twins r f) = [] := by
    refine List.filter_eq_nil_iff.2 fun r hr hrf => ?_
    have hrf : Twins r f := of_decide_eq_true hrf
    have hhas : flexHas db r = true := flexHas_iff.2 ⟨f, hf, hrf.2.1.symm, hexec⟩
    simpa [hhas] using (List.mem_filter.1 hr).2
  rw [executionsView, List.filter_append, List.filter_append, List.filter_map, List.filter_map,
    List.filter_map]
  simp only [Function.comp_def, hflex, htws, List.map_nil, List.map_cons, List.append_nil,
    List.cons_append, List.nil_append]

/-- The ids decode exactly while no TWS row that is shown has a key from the journal offset on, and
no journal row is of a fill that TWS and Flex both have. -/
theorem idsDecode_iff (db : ExecutionDb) (hpos : ∀ t, ∀ r ∈ (db.raw t).rows, 0 < r.id) :
    IdsDecode db ↔ TwsBelowOffset db ∧ JournalApart db := by
  constructor
  · intro h
    refine ⟨fun t ht hshown => ?_, fun t ht f hf hsame j hj hjf => ?_⟩
    · by_contra hge
      have hview : (⟨.tws, t⟩ : ViewRow) ∈ executionsView db :=
        mem_executionsView.2 ⟨ht, fun _ => hshown⟩
      have hjournal := rawTablePk_tws_of_offset_le (not_lt.1 hge)
      rw [show accountExecutionsIdOf .tws t.id = ViewRow.accountExecutionsId ⟨.tws, t⟩ from rfl,
        h.decode _ hview] at hjournal
      cases hjournal
    · have honce := h.once t ht f hf hsame
      rw [filter_twins hf hsame, List.cons.injEq, List.map_eq_nil_iff,
        List.filter_eq_nil_iff] at honce
      exact honce.2 j hj (decide_eq_true hjf)
  · rintro ⟨htws, hjournal⟩
    have hdecode : ∀ v ∈ executionsView db,
        rawTablePk v.accountExecutionsId = (v.table, v.row.id) := by
      intro v hv
      obtain ⟨hrow, hshown⟩ := mem_executionsView.1 hv
      refine rawTablePk_accountExecutionsIdOf (hpos _ _ hrow) fun htable => ?_
      rw [htable] at hrow
      exact htws _ hrow (hshown htable)
    refine ⟨?_, hdecode, fun t ht f hf hsame => ?_⟩
    · -- equal ids decode to equal places
      have hnodup := executionsView_nodup db
      rw [← List.map_congr_left hdecode] at hnodup
      refine List.Nodup.of_map rawTablePk ?_
      rwa [List.map_map]
    · rw [filter_twins hf hsame, List.filter_eq_nil_iff.2, List.map_nil]
      exact fun j hj hjf => hjournal t ht f hf hsame j hj (of_decide_eq_true hjf)

/-- One raw row, with nothing but its key. -/
def bareRow (pk : ℤ) : RawRow := ⟨pk, some "U1", none, none, none, none, none⟩

/-- One TWS row and one journal row. -/
def twsAndJournal (tws journal : ℤ) : ExecutionDb :=
  withRaw (withRaw .empty .tws ⟨[bareRow tws], List.pairwise_singleton ..⟩) .journal
    ⟨[bareRow journal], List.pairwise_singleton ..⟩

theorem idsDecode_iff_first_rows :
    IdsDecode (twsAndJournal 1 1) ↔
      TwsBelowOffset (twsAndJournal 1 1) ∧ JournalApart (twsAndJournal 1 1) :=
  idsDecode_iff (twsAndJournal 1 1) (by decide +kernel)

/-- A TWS row above the offset has the id of a journal row. -/
theorem not_idsDecode_above_offset : ¬ IdsDecode (twsAndJournal 1000000001 1) := by
  intro h
  have hdistinct := h.distinct
  revert hdistinct
  decide +kernel

end Portfolio
