import BifrostTrade.Portfolio.PositionAttributionKeys
import Mathlib.Data.List.ReduceOption

/-!
# Position attribution counts each fill once

The four branches of the query give a position the rows of its joined executions, each once
(`rowsOf_execLabeled`), and the result carries their sums (`resultSums_eq`).  What they count is
therefore decided by the join alone, which is wrong exactly on the rows that are `Misfit` in their
stored keys and columns: `attributionExact_iff`.
-/

namespace Portfolio.Attribution

open Py Persistence

section Spec

variable (cast : String → Option Double) (joinsTwsOfFinal : Bool) (db : Books) (f : Filter)

/-- The executions that should count for a position: its final rows, else its TWS rows. -/
def Books.contributors (p : PositionRow) : List ExecutionRow :=
  let final := db.executionsFinal.filter (ofContract cast p)
  if final ≠ [] then final else db.executionsTws.filter (ofContract cast p)

/-- What executions add to a position: the signed quantity to their own trade, or the quantity of
each split to its trade. -/
def Books.contributions (p : PositionRow) (es : List ExecutionRow) : List LabeledRow :=
  es.flatMap fun e =>
    if db.splitsOf e = [] then [db.wholeRow p e] else (db.splitsOf e).map (db.splitRow p e)

/-- The labelled rows behind the result; a query that fails has none. -/
def Books.resultLabeled : List LabeledRow :=
  if db.queryFails cast joinsTwsOfFinal f then [] else db.execLabeled cast f

/-- The sum and the number of the rows of each trade, in the order of the trades. -/
def perTrade (rows : List LabeledRow) : List (Option ℤ × ℚ × ℕ) :=
  (sortedBy nullsLast (rows.map LabeledRow.tradeId).dedup).map fun t =>
    let ofTrade := rows.filter fun r => r.tradeId = t
    (t, roundTo 6 (ofTrade.map fun r => r.signedQty.getD 0).sum, ofTrade.length)

/-- The trades, quantities and counts of the result under a stripped account and key. -/
def resultSums (rows : List ResultRow) (id : String × String) : List (Option ℤ × ℚ × ℕ) :=
  (rows.filter fun r => (r.accountId, r.contractKey) = id ∧ 0 < r.sourceExecCount).map fun r =>
    (r.tradeId, r.openQtyEst, r.sourceExecCount)

/-- Each open position gets what its contributors add, each once, and the result is the sums. -/
structure AttributionExact : Prop where
  contributes : ∀ p ∈ db.pos f, (rowsOf p (db.resultLabeled cast joinsTwsOfFinal f)).Perm
    (db.contributions p (db.contributors cast p))
  sums : ∀ p ∈ db.pos f,
    resultSums (getPositionInstanceAttribution cast joinsTwsOfFinal db f) (positionId p) =
      ((sortedBy (fun q : PositionRow => toLex q.key) (db.pos f)).filter fun q =>
        positionId q = positionId p).flatMap fun q =>
          perTrade (db.contributions q (db.contributors cast q))

/-- A strike that does not cast is read: in a final row, or in a TWS row, which are read where no
final row meets the position, and everywhere when the plan joins them first. -/
def CastFailsSomewhere : Prop :=
  ∃ p ∈ db.pos f, (∃ e ∈ db.executionsFinal, CastFails cast p e) ∨
    (joinsTwsOfFinal = true ∨ ∀ e ∈ db.executionsFinal, ¬ KeysMeet cast p e) ∧
      ∃ e ∈ db.executionsTws, CastFails cast p e

/-- No pair of a position and an execution of its account is a misfit, TWS rows counting where no
final row is of the contract; and where a strike does not cast, nothing is of any contract. -/
def KeysFit : Prop :=
  (CastFailsSomewhere cast joinsTwsOfFinal db f → ∀ p ∈ db.pos f,
      ∀ e ∈ db.executionsFinal ++ db.executionsTws, ofContract cast p e = false) ∧
    (¬ CastFailsSomewhere cast joinsTwsOfFinal db f → ∀ p ∈ db.pos f,
      (∀ e ∈ db.executionsFinal, e.accountId = some p.accountId → ¬ Misfit cast p e) ∧
        ((∀ e ∈ db.executionsFinal, ofContract cast p e = false) →
          ∀ e ∈ db.executionsTws, e.accountId = some p.accountId → ¬ Misfit cast p e))

end Spec

variable {cast : String → Option Double} {joinsTwsOfFinal : Bool} {db : Books} {f : Filter}
  {p : PositionRow} {es : List ExecutionRow}

/-! ## The branches of the query -/

theorem mem_pos (h : p ∈ db.pos f) : p ∈ db.positions.rows := List.mem_of_mem_filter h

theorem eq_of_mem_pos {q : PositionRow} (hp : p ∈ db.pos f) (hq : q ∈ db.pos f)
    (hacc : q.accountId = p.accountId) (hkey : q.contractKey = p.contractKey) : q = p :=
  db.positions.eq_of_key (mem_pos hq) (mem_pos hp) (Prod.ext hacc hkey)

theorem nodup_pos (db : Books) (f : Filter) : (db.pos f).Nodup :=
  (List.Nodup.of_map _ db.positions.nodup).sublist List.filter_sublist

/-- The rows of one position among those of many. -/
theorem rowsOf_flatMap (hp : p ∈ db.pos f) (b : PositionRow → Bool)
    {F : PositionRow → List LabeledRow}
    (hF : ∀ q, ∀ r ∈ F q, r.accountId = q.accountId ∧ r.posContractKey = q.contractKey) :
    rowsOf p (((db.pos f).filter b).flatMap F) = if b p then F p else [] := by
  have hone : ∀ q ∈ db.pos f, rowsOf p (F q) = if q = p then F p else [] := by
    intro q hq
    split_ifs with heq
    · subst heq
      refine List.filter_eq_self.2 fun r hr => ?_
      simp [hF q r hr]
    · refine List.filter_eq_nil_iff.2 fun r hr hmatch => heq ?_
      obtain ⟨hacc, hkey⟩ := hF q r hr
      have hmatch : r.accountId = p.accountId ∧ r.posContractKey = p.contractKey :=
        of_decide_eq_true hmatch
      exact eq_of_mem_pos hp hq (hacc.symm.trans hmatch.1) (hkey.symm.trans hmatch.2)
  have hnodup := nodup_pos db f
  have hcount : ∀ l : List PositionRow, l ⊆ db.pos f → l.Nodup →
      rowsOf p ((l.filter b).flatMap F) = if p ∈ l ∧ b p = true then F p else [] := by
    intro l hsub hl
    induction l with
    | nil => simp [rowsOf]
    | cons q l ih =>
      rw [List.nodup_cons] at hl
      have hq := hone q (hsub (List.mem_cons_self ..))
      have ih := ih (fun x hx => hsub (List.mem_cons_of_mem _ hx)) hl.2
      by_cases hb : b q = true
      · rw [List.filter_cons_of_pos hb, List.flatMap_cons, rowsOf, List.filter_append, ← rowsOf,
          ← rowsOf, hq, ih]
        by_cases heq : q = p
        · subst heq
          simp [hl.1, hb]
        · simp [heq, Ne.symm heq]
      · rw [List.filter_cons_of_neg hb, ih]
        by_cases heq : q = p
        · subst heq
          simp [hb]
        · simp [Ne.symm heq]
  rw [hcount _ (fun _ h => h) hnodup]
  simp [hp]

theorem wholeRows_position (q : PositionRow) (es : List ExecutionRow) :
    ∀ r ∈ db.wholeRows q es, r.accountId = q.accountId ∧ r.posContractKey = q.contractKey := by
  intro r hr
  obtain ⟨e, -, rfl⟩ := List.mem_map.1 hr
  exact ⟨rfl, rfl⟩

theorem splitRows_position (q : PositionRow) (es : List ExecutionRow) :
    ∀ r ∈ db.splitRows q es, r.accountId = q.accountId ∧ r.posContractKey = q.contractKey := by
  intro r hr
  obtain ⟨e, -, hr⟩ := List.mem_flatMap.1 hr
  obtain ⟨a, -, rfl⟩ := List.mem_map.1 hr
  exact ⟨rfl, rfl⟩

/-- Whole rows and split rows together are every execution once. -/
theorem wholeRows_append_splitRows (p : PositionRow) (es : List ExecutionRow) :
    (db.wholeRows p es ++ db.splitRows p es).Perm (db.contributions p es) := by
  induction es with
  | nil => exact List.Perm.nil
  | cons e es ih =>
    simp only [Books.wholeRows, Books.splitRows, Books.contributions, List.flatMap_cons] at ih ⊢
    by_cases he : db.splitsOf e = []
    · rw [List.filter_cons_of_pos (by simpa using he), if_pos he, he, List.map_nil,
        List.nil_append, List.map_cons, List.cons_append, List.singleton_append]
      exact ih.cons _
    · rw [List.filter_cons_of_neg (by simpa using he), if_neg he]
      refine (List.perm_append_comm_assoc ..).trans ?_
      exact ih.append_left _

/-- The executions that a position is joined with. -/
def Books.joined (db : Books) (cast : String → Option Double) (p : PositionRow) :
    List ExecutionRow :=
  let final := db.executionsFinal.filter (joins cast p)
  if final ≠ [] then final else db.executionsTws.filter (joins cast p)

theorem hasFinal_iff (hp : p ∈ db.pos f) :
    db.hasFinal cast f p = true ↔ db.executionsFinal.filter (joins cast p) ≠ [] := by
  simp only [Books.hasFinal, List.any_eq_true, decide_eq_true_eq, ne_eq, List.filter_eq_nil_iff,
    not_forall, not_not]
  constructor
  · rintro ⟨q, hq, hacc, hkey, e, he, hjoin⟩
    obtain rfl := eq_of_mem_pos hp hq hacc hkey
    exact ⟨e, he, hjoin⟩
  · rintro ⟨e, he, hjoin⟩
    exact ⟨p, hp, rfl, rfl, e, he, hjoin⟩

/-- The labelled rows of a position are its joined executions, each once. -/
theorem rowsOf_execLabeled (hp : p ∈ db.pos f) :
    (rowsOf p (db.execLabeled cast f)).Perm (db.contributions p (db.joined cast p)) := by
  have hrows : rowsOf p (db.execLabeled cast f) =
      (if db.hasFinal cast f p then db.wholeRows p (db.executionsFinal.filter (joins cast p))
        else []) ++
      (if db.hasFinal cast f p then db.splitRows p (db.executionsFinal.filter (joins cast p))
        else []) ++
      (if !db.hasFinal cast f p then db.wholeRows p (db.executionsTws.filter (joins cast p))
        else []) ++
      if !db.hasFinal cast f p then db.splitRows p (db.executionsTws.filter (joins cast p))
        else [] := by
    rw [Books.execLabeled, rowsOf, List.filter_append, List.filter_append, List.filter_append,
      ← rowsOf, ← rowsOf, ← rowsOf, ← rowsOf,
      rowsOf_flatMap hp _ fun q => wholeRows_position q _,
      rowsOf_flatMap hp _ fun q => splitRows_position q _,
      rowsOf_flatMap hp _ fun q => wholeRows_position q _,
      rowsOf_flatMap hp _ fun q => splitRows_position q _]
  rw [hrows]
  by_cases hfinal : db.executionsFinal.filter (joins cast p) = []
  · have hno : db.hasFinal cast f p = false := by
      rw [Bool.eq_false_iff]
      exact fun h => (hasFinal_iff hp).1 h hfinal
    simp only [hno, Bool.false_eq_true, if_false, Bool.not_false, if_true, List.nil_append]
    rw [Books.joined, if_neg (not_not.2 hfinal)]
    exact wholeRows_append_splitRows p _
  · have hyes : db.hasFinal cast f p = true := (hasFinal_iff hp).2 hfinal
    simp only [hyes, if_true, Bool.not_true, Bool.false_eq_true, if_false, List.append_nil]
    rw [Books.joined, if_pos hfinal]
    exact wholeRows_append_splitRows p _

/-- The rows of a position come from the executions that contribute to it. -/
theorem mem_iff_contributions (db : Books) (p : PositionRow) {e : ExecutionRow} :
    e ∈ es ↔ ∃ r ∈ db.contributions p es, r.execution = e := by
  simp only [Books.contributions, List.mem_flatMap]
  constructor
  · intro he
    by_cases hs : db.splitsOf e = []
    · exact ⟨db.wholeRow p e, ⟨e, he, by rw [if_pos hs]; exact List.mem_singleton_self _⟩, rfl⟩
    · obtain ⟨a, ha⟩ := List.exists_mem_of_ne_nil _ hs
      exact ⟨db.splitRow p e a, ⟨e, he, by rw [if_neg hs]; exact List.mem_map_of_mem ha⟩, rfl⟩
  · rintro ⟨r, ⟨e', he', hr⟩, rfl⟩
    split_ifs at hr with hs
    · obtain rfl := List.mem_singleton.1 hr
      exact he'
    · obtain ⟨a, -, rfl⟩ := List.mem_map.1 hr
      exact he'

/-! ## The sums of a position -/

theorem nullsLast_injective : Function.Injective nullsLast := by
  intro a b h
  have h : (a.isNone, a.getD 0) = (b.isNone, b.getD 0) := toLex.injective h
  rw [Prod.mk.injEq] at h
  cases a <;> cases b <;> simp_all

theorem sqlSum_getD (l : List (Option ℚ)) : (sqlSum l).getD 0 = (l.map fun v => v.getD 0).sum := by
  have hsum : l.reduceOption.sum = (l.map fun v => v.getD 0).sum := by
    induction l with
    | nil => rfl
    | cons v l ih =>
      cases v with
      | none => simpa [List.reduceOption_cons_of_none] using ih
      | some v => simpa [List.reduceOption_cons_of_some] using ih
  rw [← hsum, sqlSum]
  by_cases h : l.reduceOption = []
  · rw [if_pos h, h]
    rfl
  · rw [if_neg h]
    rfl

/-- The sums do not depend on the order of the rows. -/
theorem perTrade_perm {rows rows' : List LabeledRow} (h : rows.Perm rows') :
    perTrade rows = perTrade rows' := by
  have hkeys : sortedBy nullsLast (rows.map LabeledRow.tradeId).dedup =
      sortedBy nullsLast (rows'.map LabeledRow.tradeId).dedup :=
    sortedBy_eq_of_perm (h.map _).dedup fun a _ b _ hab => nullsLast_injective hab
  rw [perTrade, perTrade, hkeys]
  refine List.map_congr_left fun t _ => ?_
  have ht := h.filter fun r => r.tradeId = t
  have hsum := (ht.map fun r => r.signedQty.getD 0).sum_eq
  simp only [hsum, ht.length_eq]

/-- The groups of a position carry the sums of its trades. -/
theorem execGrouped_map (rows : List LabeledRow) :
    ((execGrouped rows).map fun g =>
      (g.tradeId, roundTo 6 (g.netQtyContribution.getD 0), g.execCount)) = perTrade rows := by
  have hkeys : sortedBy nullsLast (firstSeen (rows.map LabeledRow.tradeId)) =
      sortedBy nullsLast (rows.map LabeledRow.tradeId).dedup :=
    sortedBy_eq_of_perm (firstSeen_perm_dedup _) fun a _ b _ hab => nullsLast_injective hab
  rw [execGrouped, groupBy, sortedBy_map, hkeys, List.map_map, List.map_map, perTrade]
  refine List.map_congr_left fun t _ => ?_
  simp only [Function.comp_apply, sqlSum_getD, List.map_map]
  rfl

theorem execCount_pos {rows : List LabeledRow} {g : GroupedRow} (hg : g ∈ execGrouped rows) :
    0 < g.execCount := by
  obtain ⟨⟨t, ofTrade⟩, hmem, rfl⟩ := List.mem_map.1 hg
  obtain ⟨ht, hrows⟩ := mem_groupBy.1 (mem_sortedBy.1 hmem)
  obtain ⟨r, hr, hrt⟩ := List.mem_map.1 ht
  have hmem : r ∈ (t, ofTrade).2 := by
    rw [hrows]
    exact List.mem_filter.2 ⟨hr, decide_eq_true hrt⟩
  exact List.length_pos_of_mem hmem

/-! ## The sums of the result -/

theorem buildGroup_id {id : String × String} {rows : List QueryRow}
    (hrows : ∀ m ∈ rows, positionId m.position = id) {r : ResultRow} (hr : r ∈ buildGroup rows) :
    (r.accountId, r.contractKey) = id := by
  cases rows with
  | nil => simp [buildGroup] at hr
  | cons m rows =>
    rw [← hrows m (List.mem_cons_self ..)]
    simp only [buildGroup] at hr
    split_ifs at hr
    · rw [List.mem_singleton.1 hr]
      rfl
    · obtain ⟨g, -, rfl⟩ := List.mem_map.1 hr
      rfl

theorem map_makeAttributionRow_sums (p : PositionRow) {groups : List GroupedRow}
    (hpos : ∀ g ∈ groups, 0 < g.execCount) (sumAbs : ℚ) (isMixed hasUnassigned : Bool) :
    (((groups.map fun g => makeAttributionRow p (some g) sumAbs isMixed hasUnassigned).filter
      fun r => 0 < r.sourceExecCount).map fun r => (r.tradeId, r.openQtyEst, r.sourceExecCount)) =
      groups.map fun g =>
        (g.tradeId, roundTo 6 (g.netQtyContribution.getD 0), g.execCount) := by
  rw [List.filter_eq_self.2, List.map_map]
  · rfl
  · intro r hr
    obtain ⟨g, hg, rfl⟩ := List.mem_map.1 hr
    exact decide_eq_true (hpos g hg)

/-- The counted rows of a group are its query rows with executions. -/
theorem buildGroup_sums (rows : List QueryRow) :
    (((buildGroup rows).filter fun r => 0 < r.sourceExecCount).map fun r =>
      (r.tradeId, r.openQtyEst, r.sourceExecCount)) =
      ((rows.filterMap QueryRow.group).filter fun g => 0 < g.execCount).map fun g =>
        (g.tradeId, roundTo 6 (g.netQtyContribution.getD 0), g.execCount) := by
  cases rows with
  | nil => rfl
  | cons m rows =>
    simp only [buildGroup]
    split_ifs with hnone
    · rw [hnone]
      rfl
    · apply map_makeAttributionRow_sums
      exact fun g hg => of_decide_eq_true (List.mem_filter.1 hg).2

theorem resultSums_buildAttributionRows (rows : List QueryRow) (id : String × String) :
    resultSums (buildAttributionRows rows) id =
      ((rows.filter fun r => positionId r.position = id).filterMap QueryRow.group
        |>.filter fun g => 0 < g.execCount).map fun g =>
          (g.tradeId, roundTo 6 (g.netQtyContribution.getD 0), g.execCount) := by
  have hone := filter_flatMap_groupBy (fun r : QueryRow => positionId r.position)
    (fun r : ResultRow => (r.accountId, r.contractKey)) rows (fun _ => buildGroup)
    (fun _ => rfl) (fun k as has r hr => buildGroup_id has hr) id
  rw [← buildGroup_sums, ← hone, List.filter_filter, resultSums, buildAttributionRows]
  congr 2
  funext r
  rw [Bool.decide_and, Bool.and_comm]

/-- The groups in the query rows of one position. -/
theorem filterMap_group_position (q : PositionRow) (groups : List GroupedRow)
    (id : String × String) :
    ((if groups = [] then [⟨q, none⟩] else groups.map fun g => ⟨q, some g⟩ : List QueryRow).filter
      fun r => positionId r.position = id).filterMap QueryRow.group =
      if positionId q = id then groups else [] := by
  by_cases hid : positionId q = id
  · rw [if_pos hid, List.filter_eq_self.2]
    · split_ifs with hnil
      · rw [hnil]
        rfl
      · rw [List.filterMap_map]
        exact List.filterMap_some
    · intro r hr
      refine decide_eq_true ?_
      split_ifs at hr
      · rwa [List.mem_singleton.1 hr]
      · obtain ⟨g, -, rfl⟩ := List.mem_map.1 hr
        exact hid
  · rw [if_neg hid, List.filter_eq_nil_iff.2]
    · rfl
    · intro r hr h
      have h : positionId r.position = id := of_decide_eq_true h
      split_ifs at hr
      · rw [List.mem_singleton.1 hr] at h
        exact hid h
      · obtain ⟨g, -, rfl⟩ := List.mem_map.1 hr
        exact hid h

/-- Under each stripped account and key the result has the sums of its positions. -/
theorem resultSums_eq (hok : db.queryFails cast joinsTwsOfFinal f = false)
    (id : String × String) :
    resultSums (getPositionInstanceAttribution cast joinsTwsOfFinal db f) id =
      ((sortedBy (fun q : PositionRow => toLex q.key) (db.pos f)).filter fun q =>
        positionId q = id).flatMap fun q => perTrade (rowsOf q (db.execLabeled cast f)) := by
  rw [getPositionInstanceAttribution, Books.queryRows, if_neg (Bool.eq_false_iff.1 hok),
    Option.map_some, Option.getD_some, resultSums_buildAttributionRows]
  induction sortedBy (fun q : PositionRow => toLex q.key) (db.pos f) with
  | nil => rfl
  | cons q l ih =>
    rw [List.flatMap_cons, List.filter_append, List.filterMap_append, List.filter_append,
      List.map_append, ih, filterMap_group_position]
    by_cases hid : positionId q = id
    · rw [if_pos hid, List.filter_cons_of_pos (by simpa using hid), List.flatMap_cons,
        List.filter_eq_self.2 fun g hg => decide_eq_true (execCount_pos hg), execGrouped_map]
    · rw [if_neg hid, List.filter_cons_of_neg (by simpa using hid)]
      rfl

/-! ## The join decides -/

theorem joined_eq_contributors
    (hfinal : ∀ e ∈ db.executionsFinal, joins cast p e = ofContract cast p e)
    (htws : (∀ e ∈ db.executionsFinal, ofContract cast p e = false) →
      ∀ e ∈ db.executionsTws, joins cast p e = ofContract cast p e) :
    db.joined cast p = db.contributors cast p := by
  have heq : db.executionsFinal.filter (joins cast p) =
      db.executionsFinal.filter (ofContract cast p) :=
    List.filter_congr hfinal
  simp only [Books.joined, Books.contributors, heq]
  by_cases hnone : db.executionsFinal.filter (ofContract cast p) = []
  · rw [if_neg (not_not.2 hnone), if_neg (not_not.2 hnone)]
    refine List.filter_congr (htws fun e he => ?_)
    exact Bool.eq_false_iff.2 (List.filter_eq_nil_iff.1 hnone e he)
  · rw [if_pos hnone, if_pos hnone]

/-- A position joined with its contributors is joined as the contracts say. -/
theorem joins_eq_of_mem_iff (h : ∀ e, e ∈ db.joined cast p ↔ e ∈ db.contributors cast p) :
    (∀ e ∈ db.executionsFinal, joins cast p e = ofContract cast p e) ∧
      ((∀ e ∈ db.executionsFinal, ofContract cast p e = false) →
        ∀ e ∈ db.executionsTws, joins cast p e = ofContract cast p e) := by
  have hfilter : ∀ {l : List ExecutionRow} {P Q : ExecutionRow → Bool},
      (∀ e, e ∈ l.filter P ↔ e ∈ l.filter Q) → ∀ e ∈ l, P e = Q e := by
    intro l P Q hPQ e he
    rw [Bool.eq_iff_iff]
    simpa [he] using hPQ e
  simp only [Books.joined, Books.contributors] at h
  by_cases hC : db.executionsFinal.filter (ofContract cast p) = []
  · have hnone : ∀ e ∈ db.executionsFinal, ofContract cast p e = false :=
      fun e he => Bool.eq_false_iff.2 (List.filter_eq_nil_iff.1 hC e he)
    by_cases hJ : db.executionsFinal.filter (joins cast p) = []
    · rw [if_neg (not_not.2 hJ), if_neg (not_not.2 hC)] at h
      refine ⟨fun e he => ?_, fun _ => hfilter h⟩
      rw [hnone e he, Bool.eq_false_iff]
      exact List.filter_eq_nil_iff.1 hJ e he
    · -- a joined final row would have to be of the contract
      obtain ⟨e, he⟩ := List.exists_mem_of_ne_nil _ hJ
      rw [if_pos hJ, if_neg (not_not.2 hC)] at h
      have hcontract := (List.mem_filter.1 ((h e).1 he)).2
      rw [hnone e (List.mem_of_mem_filter he)] at hcontract
      exact absurd hcontract Bool.false_ne_true
  · obtain ⟨e, he⟩ := List.exists_mem_of_ne_nil _ hC
    have hof := (List.mem_filter.1 he).2
    refine ⟨?_, fun hnone => ?_⟩
    · rw [if_pos hC] at h
      by_cases hJ : db.executionsFinal.filter (joins cast p) = []
      · -- the final row of the contract is among the joined TWS rows, hence joined itself
        rw [if_neg (not_not.2 hJ)] at h
        have hjoin := (List.mem_filter.1 ((h e).2 he)).2
        exact absurd hjoin (List.filter_eq_nil_iff.1 hJ e (List.mem_of_mem_filter he))
      · rw [if_pos hJ] at h
        exact hfilter h
    · rw [hnone e (List.mem_of_mem_filter he)] at hof
      exact absurd hof Bool.false_ne_true

theorem contributors_eq_nil_iff :
    db.contributors cast p = [] ↔
      ∀ e ∈ db.executionsFinal ++ db.executionsTws, ofContract cast p e = false := by
  simp only [Books.contributors, List.mem_append, or_imp, forall_and]
  split_ifs with h
  · simp only [h, false_iff, not_and]
    intro hnone
    refine absurd ?_ h
    exact List.filter_eq_nil_iff.2 fun e he => by simp [hnone e he]
  · rw [ne_eq, not_not, List.filter_eq_nil_iff] at h
    simp only [List.filter_eq_nil_iff, Bool.not_eq_true] at h ⊢
    exact ⟨fun htws => ⟨h, htws⟩, fun hall => hall.2⟩

/-- With the positions joined as their contracts say the result is exact. -/
theorem AttributionExact.of_joined (hok : db.queryFails cast joinsTwsOfFinal f = false)
    (h : ∀ p ∈ db.pos f, db.joined cast p = db.contributors cast p) :
    AttributionExact cast joinsTwsOfFinal db f := by
  have hrows : ∀ p ∈ db.pos f, (rowsOf p (db.execLabeled cast f)).Perm
      (db.contributions p (db.contributors cast p)) :=
    fun p hp => h p hp ▸ rowsOf_execLabeled hp
  constructor
  · intro p hp
    rw [Books.resultLabeled, hok]
    exact hrows p hp
  · intro p hp
    rw [resultSums_eq hok]
    refine List.flatMap_congr fun q hq => perTrade_perm (hrows q ?_)
    exact mem_sortedBy.1 (List.mem_of_mem_filter hq)

/-- A query that fails gives the right answer where nothing contributes. -/
theorem AttributionExact.of_queryFails (hfails : db.queryFails cast joinsTwsOfFinal f = true)
    (h : ∀ p ∈ db.pos f, db.contributors cast p = []) :
    AttributionExact cast joinsTwsOfFinal db f := by
  constructor
  · intro p hp
    rw [Books.resultLabeled, hfails, h p hp]
    exact List.Perm.nil
  · intro p hp
    rw [getPositionInstanceAttribution, Books.queryRows, if_pos hfails]
    symm
    rw [Option.map_none, Option.getD_none, List.flatMap_eq_nil_iff.2]
    · rfl
    · intro q hq
      rw [h q (mem_sortedBy.1 (List.mem_of_mem_filter hq))]
      rfl

/-- The query fails exactly where a strike that it reads does not cast. -/
theorem queryFails_iff : db.queryFails cast joinsTwsOfFinal f = true ↔
    CastFailsSomewhere cast joinsTwsOfFinal db f := by
  simp only [Books.queryFails, CastFailsSomewhere, List.any_eq_true, decide_eq_true_eq,
    castFails_iff, Bool.not_eq_true', Bool.eq_false_iff, ne_eq]
  refine exists_congr fun p => and_congr_right fun hp => ?_
  rw [hasFinal_iff hp, ne_eq, not_not, List.filter_eq_nil_iff]
  by_cases hfinal : ∃ e ∈ db.executionsFinal, CastFails cast p e
  · exact iff_of_true (Or.inl hfinal) (Or.inl hfinal)
  · have hmeet : (∀ e ∈ db.executionsFinal, ¬ joins cast p e = true) ↔
        ∀ e ∈ db.executionsFinal, ¬ KeysMeet cast p e :=
      forall₂_congr fun e he => not_congr (joins_iff fun h => hfinal ⟨e, he, h⟩)
    rw [hmeet]

/-- Where no strike fails, the join says what the contracts say of a position's rows exactly when
none of them is a misfit. -/
theorem joins_eq_iff_fit (hp : p ∈ db.pos f)
    (hcast : ¬ CastFailsSomewhere cast joinsTwsOfFinal db f) :
    ((∀ e ∈ db.executionsFinal, joins cast p e = ofContract cast p e) ∧
        ((∀ e ∈ db.executionsFinal, ofContract cast p e = false) →
          ∀ e ∈ db.executionsTws, joins cast p e = ofContract cast p e)) ↔
      (∀ e ∈ db.executionsFinal, e.accountId = some p.accountId → ¬ Misfit cast p e) ∧
        ((∀ e ∈ db.executionsFinal, ofContract cast p e = false) →
          ∀ e ∈ db.executionsTws, e.accountId = some p.accountId → ¬ Misfit cast p e) := by
  have hrow : ∀ {e : ExecutionRow}, ¬ CastFails cast p e →
      (joins cast p e = ofContract cast p e ↔
        (e.accountId = some p.accountId → ¬ Misfit cast p e)) := by
    intro e he
    by_cases hacc : e.accountId = some p.accountId
    · rw [joins_eq_ofContract_iff hacc he]
      exact ⟨fun h _ => h, fun h => h hacc⟩
    · exact iff_of_true (joins_eq_ofContract_of_account hacc) fun h => absurd h hacc
  have hcastFinal : ∀ e ∈ db.executionsFinal, ¬ CastFails cast p e :=
    fun e he h => hcast ⟨p, hp, Or.inl ⟨e, he, h⟩⟩
  have hfinal := forall₂_congr fun e he => hrow (hcastFinal e he)
  rw [hfinal]
  refine and_congr_right fun hfit => forall_congr' fun hnone => ?_
  -- without a final row of the contract none meets the position, so no TWS strike fails
  have hcastTws : ∀ e ∈ db.executionsTws, ¬ CastFails cast p e := by
    refine fun e he h => hcast ⟨p, hp, Or.inr ⟨Or.inr fun e' he' hmeet => ?_, e, he, h⟩⟩
    rw [← joins_iff (hcastFinal e' he'), hfinal.2 hfit e' he', hnone e' he'] at hmeet
    exact absurd hmeet Bool.false_ne_true
  exact forall₂_congr fun e he => hrow (hcastTws e he)

/-- The attribution is exact if and only if no row is a misfit in its stored key and columns. -/
theorem attributionExact_iff (cast : String → Option Double) (joinsTwsOfFinal : Bool) (db : Books)
    (f : Filter) :
    AttributionExact cast joinsTwsOfFinal db f ↔ KeysFit cast joinsTwsOfFinal db f := by
  have hmem : AttributionExact cast joinsTwsOfFinal db f → ∀ p ∈ db.pos f, ∀ e,
      (∃ r ∈ rowsOf p (db.resultLabeled cast joinsTwsOfFinal f), r.execution = e) ↔
        e ∈ db.contributors cast p := by
    intro h p hp e
    rw [mem_iff_contributions db p]
    simp only [(h.contributes p hp).mem_iff]
  rw [KeysFit, ← queryFails_iff]
  cases hfails : db.queryFails cast joinsTwsOfFinal f with
  | true =>
    simp only [forall_const, not_true_eq_false, false_imp_iff, and_true,
      ← contributors_eq_nil_iff]
    refine ⟨fun h p hp => ?_, AttributionExact.of_queryFails hfails⟩
    refine List.eq_nil_iff_forall_not_mem.2 fun e he => ?_
    obtain ⟨r, hr, -⟩ := (hmem h p hp e).2 he
    rw [Books.resultLabeled, hfails] at hr
    exact absurd hr List.not_mem_nil
  | false =>
    have hcast : ¬ CastFailsSomewhere cast joinsTwsOfFinal db f := by
      rw [← queryFails_iff, hfails]
      exact Bool.false_ne_true
    simp only [Bool.false_eq_true, false_imp_iff, not_false_eq_true, forall_const, true_and]
    constructor
    · intro h p hp
      refine (joins_eq_iff_fit hp hcast).1 (joins_eq_of_mem_iff fun e => ?_)
      rw [← hmem h p hp e, mem_iff_contributions db p, Books.resultLabeled, hfails]
      simp only [(rowsOf_execLabeled hp).mem_iff, Bool.false_eq_true, if_false]
    · intro h
      apply AttributionExact.of_joined hfails
      intro p hp
      obtain ⟨hfinal, htws⟩ := (joins_eq_iff_fit hp hcast).2 (h p hp)
      exact joined_eq_contributors hfinal htws

/-- A fill of the AAPL call that the position holds, and one of an MSFT call with its expiry,
strike and right. -/
def otherUnderlyingBooks : Books where
  positions := ⟨
    [{ accountId := "U1", contractKey := "AAPL|OPT|20261016|150.0|C", symbol := some "AAPL",
       secType := some "OPT", exchange := none, currency := none, position := some 1,
       avgCost := some 500, expiry := some "20261016", strike := some 150,
       optionRight := some "C", updatedAt := 0 }], List.nodup_singleton _⟩
  executionsFinal :=
    [{ accountExecutionsId := 1, accountId := some "U1",
       contractKey := some "AAPL|OPT|20261016|150.0|C", symbol := some "AAPL",
       underlyingSymbol := some "AAPL", secType := some "OPT", expiry := some "20261016",
       strike := some 150, optionRight := some "C", side := some "BUY", quantity := some 1,
       tradeId := some 1, strategyOpportunityId := none },
     { accountExecutionsId := 2, accountId := some "U1",
       contractKey := some "MSFT|OPT|20261016|150.0|C", symbol := some "MSFT",
       underlyingSymbol := some "MSFT", secType := some "OPT", expiry := some "20261016",
       strike := some 150, optionRight := some "C", side := some "BUY", quantity := some 2,
       tradeId := some 2, strategyOpportunityId := none }]
  executionsTws := []
  tradeFillSplits := []
  trades := Sql.Table.empty

theorem not_attributionExact_otherUnderlying :
    ¬ AttributionExact readFloat false otherUnderlyingBooks ⟨none, none⟩ := by
  intro h
  have hlength : ∀ p ∈ otherUnderlyingBooks.pos ⟨none, none⟩,
      (rowsOf p (otherUnderlyingBooks.resultLabeled readFloat false ⟨none, none⟩)).length =
        (otherUnderlyingBooks.contributions p
          (otherUnderlyingBooks.contributors readFloat p)).length :=
    fun p hp => (h.contributes p hp).length_eq
  revert hlength
  decide +kernel

end Portfolio.Attribution
