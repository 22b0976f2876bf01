import BifrostTrade.Lib.Rollup
import BifrostTrade.Portfolio.SnapshotCapture

/-!
# Snapshot rows add up

`split_rows` gives each trade of a position one row with the trade's net fills, and what the trades
do not explain one row without a trade.  The rows have different keys, so that the table takes all
of them, and in exact arithmetic they add up to the broker's quantity as far as rounding to six
decimals and `QTY_EPS` let them (`rowsAddUp`).  In doubles they need not
(`not_qtysAddUp_farShares`).
-/

namespace Portfolio.Snapshot

open Py Persistence

/-! ## The law -/

/-- The row names an account and a contract. -/
def AttributionRow.Named (r : AttributionRow) : Prop := r.position.1 ≠ "" ∧ r.position.2 ≠ ""

instance (r : AttributionRow) : Decidable r.Named := inferInstanceAs (Decidable (_ ∧ _))

/-- The position of a row. -/
def SplitRow.position (r : SplitRow) : String × String := (r.accountId, r.contractKey)

/-- The rows of a position carry one quantity. -/
def SameQty (attribution : List AttributionRow) : Prop :=
  ∀ r ∈ attribution, ∀ s ∈ attribution, r.position = s.position →
    r.positionQty.finite = s.positionQty.finite

instance (attribution : List AttributionRow) : Decidable (SameQty attribution) :=
  inferInstanceAs (Decidable (∀ r ∈ attribution, ∀ s ∈ attribution, _ → _))

section Law

variable (rnd : ℚ → ℚ) (attribution : List AttributionRow)

/-- The snapshot rows of a position. -/
def rowsOfPosition (p : String × String) : List SplitRow :=
  (splitRows rnd attribution).filter fun r => r.position = p

/-- The net fills of a trade on a position. -/
def tradeNet (p : String × String) (t : ℤ) : ℚ :=
  sumWith rnd ((attribution.filter fun r => r.position = p ∧ r.tradeId = some t).map fun r =>
    r.openQtyEst.finite.getD 0)

/-- What the trades with a row explain of a position. -/
def explained (p : String × String) : ℚ :=
  (((rowsOfPosition rnd attribution p).filterMap SplitRow.tradeId).map
    (tradeNet rnd attribution p)).sum

/-- Every position with a row has snapshot rows, the table takes all of them, and the row of a trade
has its net fills. -/
structure RowsKept : Prop where
  /-- The table drops no row of a session it has no row of these positions for. -/
  inserted : ∀ (table : Sql.Table PositionSnapshotRow.key)
    (snapshot : SplitRow → PositionSnapshotRow), (∀ r, (snapshot r).row = r) →
    (∀ r ∈ splitRows rnd attribution, table.hasKey (snapshot r).key = false) →
    (table.insertAllOrIgnore ((splitRows rnd attribution).map snapshot)).2 =
      (splitRows rnd attribution).length
  unique : ((splitRows rnd attribution).map fun r => (r.position, r.tradeId)).Nodup
  covered : ∀ r ∈ attribution, r.Named → rowsOfPosition rnd attribution r.position ≠ []
  trade : ∀ row ∈ splitRows rnd attribution, ∀ t, row.tradeId = some t →
    row.tradeQty = rnd (roundTo 6 (tradeNet rnd attribution row.position t))

/-- The quantities of a position add up to that of the broker, with what the trades leave of it on
the row without a trade. -/
structure QtysAddUp : Prop where
  sum : ∀ r ∈ attribution, r.Named → ∀ qty, r.positionQty.finite = some qty →
    |((rowsOfPosition rnd attribution r.position).map SplitRow.tradeQty).sum - qty| ≤
      qtyEps + (rowsOfPosition rnd attribution r.position).length * (1 / 2 / 10 ^ 6)
  rest : ∀ row ∈ splitRows rnd attribution, row.tradeId = none →
    row.tradeQty = roundTo 6 (row.positionQty - explained rnd attribution row.position)

end Law

/-! ## The shares of a position -/

variable {rnd : ℚ → ℚ}

/-- The trades of a position with their quantities, before noise is left out. -/
def tradeQtys (group : List AttributionRow) : List (ℤ × ℚ) :=
  group.filterMap fun r => r.tradeId.map fun t => (t, r.openQtyEst.finite.getD 0)

theorem perTrade_nodup (group : List AttributionRow) :
    ((perTrade rnd group).map Prod.fst).Nodup := by
  have hkeys : (((groupBy Prod.fst (tradeQtys group)).map fun g =>
      (g.1, sumWith rnd (g.2.map Prod.snd))).map Prod.fst).Nodup := by
    rw [groupBy, List.map_map, List.map_map]
    exact (List.map_id _).symm ▸ firstSeen_nodup _
  exact hkeys.sublist ((List.filter_sublist).map _)

/-- The rows of a trade, as its quantities. -/
theorem filter_tradeQtys (group : List AttributionRow) (t : ℤ) :
    ((tradeQtys group).filter fun a => a.1 = t).map Prod.snd =
      (group.filter fun r => r.tradeId = some t).map fun r => r.openQtyEst.finite.getD 0 := by
  induction group with
  | nil => rfl
  | cons r group ih =>
    rw [tradeQtys] at ih ⊢
    cases htrade : r.tradeId with
    | none =>
      rw [List.filterMap_cons_none (by rw [htrade]; rfl), ih,
        List.filter_cons_of_neg (by simp [htrade])]
    | some t' =>
      rw [List.filterMap_cons_some (by rw [htrade]; rfl)]
      by_cases hk : t' = t
      · rw [List.filter_cons_of_pos (by simpa using hk),
          List.filter_cons_of_pos (by simpa [htrade] using hk), List.map_cons, List.map_cons, ih]
      · rw [List.filter_cons_of_neg (by simpa using hk),
          List.filter_cons_of_neg (by simpa [htrade] using hk), ih]

theorem perTrade_qty {group : List AttributionRow} {s : ℤ × ℚ} (hs : s ∈ perTrade rnd group) :
    s.2 = sumWith rnd ((group.filter fun r => r.tradeId = some s.1).map fun r =>
      r.openQtyEst.finite.getD 0) := by
  obtain ⟨g, hg, rfl⟩ := List.mem_map.1 (List.mem_of_mem_filter hs)
  rw [← filter_tradeQtys, (mem_groupBy.1 hg).2]
  rfl

theorem shares_ne_nil (qty : ℚ) (group : List AttributionRow) : shares rnd qty group ≠ [] := by
  unfold shares
  dsimp only
  by_cases hnil : perTrade rnd group = []
  · simp [hnil]
  · have hsorted : sortedBy Prod.fst (perTrade rnd group) ≠ [] := fun h =>
      hnil (List.perm_nil.1 (h ▸ (sortedBy_perm _ _).symm))
    simp [hsorted]

theorem shares_nodup (qty : ℚ) (group : List AttributionRow) :
    ((shares rnd qty group).map Prod.fst).Nodup := by
  have hsorted : ((sortedBy Prod.fst (perTrade rnd group)).map Prod.fst).Nodup :=
    ((sortedBy_perm Prod.fst (perTrade rnd group)).map Prod.fst).nodup_iff.2 (perTrade_nodup group)
  have htrades := hsorted.map (Option.some_injective ℤ)
  rw [List.map_map] at htrades
  unfold shares
  dsimp only
  rw [List.map_append, List.map_map]
  refine List.Nodup.append htrades ?_ ?_
  · split_ifs <;> simp
  · intro t ht hrest
    obtain ⟨s, -, rfl⟩ := List.mem_map.1 ht
    split_ifs at hrest <;> simp at hrest

/-- What the trades leave of a position without rounding. -/
theorem shares_id (qty : ℚ) (group : List AttributionRow) :
    shares id qty group =
      (sortedBy Prod.fst (perTrade id group)).map (fun s => (some s.1, s.2)) ++
        if qtyEps < |qty - ((perTrade id group).map Prod.snd).sum| ∨ perTrade id group = [] then
          [(none, qty - ((perTrade id group).map Prod.snd).sum)]
        else [] := by
  unfold shares
  dsimp only
  rw [sumWith_id, id]
  congr 3
  split_ifs with hnil
  · rw [hnil]
    simp
  · rfl

/-- The shares add up to the quantity, but for a remainder that is noise. -/
theorem abs_sum_shares_sub_le (qty : ℚ) (group : List AttributionRow) :
    |((shares id qty group).map Prod.snd).sum - qty| ≤ qtyEps := by
  have heps : (0 : ℚ) ≤ qtyEps := by norm_num [qtyEps]
  have htrades : (((sortedBy Prod.fst (perTrade id group)).map fun s : ℤ × ℚ =>
      ((some s.1 : Option ℤ), s.2)).map Prod.snd).sum = ((perTrade id group).map Prod.snd).sum := by
    rw [List.map_map]
    exact ((sortedBy_perm _ _).map Prod.snd).sum_eq
  rw [shares_id, List.map_append, List.sum_append, htrades]
  split_ifs with h
  · simpa using heps
  · rw [List.map_nil, List.sum_nil, add_zero, abs_sub_comm]
    exact not_lt.1 fun hlt => h (.inl hlt)

/-! ## The rows of a position -/

/-- The rows of a position that has both names. -/
def namedRows (attribution : List AttributionRow) (p : String × String) : List AttributionRow :=
  (attribution.filter fun r => r.position.1 ≠ "" ∧ r.position.2 ≠ "").filter fun r =>
    r.position = p

theorem namedRows_of_named (attribution : List AttributionRow) {p : String × String}
    (hp : p.1 ≠ "" ∧ p.2 ≠ "") :
    namedRows attribution p = attribution.filter fun r => r.position = p := by
  rw [namedRows, List.filter_filter]
  refine List.filter_congr fun r _ => ?_
  by_cases hr : r.position = p
  · subst hr
    simp [hp]
  · simp [hr]

theorem mem_positionRows {p : String × String} {group : List AttributionRow} {row : SplitRow}
    (h : row ∈ positionRows rnd p group) :
    row.position = p ∧ ∃ m ∈ group.head?, row.positionQty = m.positionQty.finite.getD 0 ∧
      ∃ s ∈ shares rnd (m.positionQty.finite.getD 0) group,
        row.tradeId = s.1 ∧ row.tradeQty = rnd (roundTo 6 s.2) := by
  cases group with
  | nil => exact absurd h List.not_mem_nil
  | cons m rest =>
    obtain ⟨s, hs, rfl⟩ := List.mem_map.1 h
    exact ⟨rfl, m, rfl, rfl, s, hs, rfl, rfl⟩

variable (rnd) in
theorem rowsOfPosition_eq (attribution : List AttributionRow) (p : String × String) :
    rowsOfPosition rnd attribution p = positionRows rnd p (namedRows attribution p) :=
  filter_flatMap_groupBy AttributionRow.position SplitRow.position _ (positionRows rnd)
    (fun _ => rfl) (fun _ _ _ _ hrow => (mem_positionRows hrow).1) p

theorem mem_rowsOfPosition {attribution : List AttributionRow} {row : SplitRow}
    (h : row ∈ splitRows rnd attribution) : row ∈ rowsOfPosition rnd attribution row.position :=
  List.mem_filter.2 ⟨h, decide_eq_true rfl⟩

/-- The position of a row is named, so that its group is all its rows of the attribution. -/
theorem namedRows_of_mem {attribution : List AttributionRow} {p : String × String}
    {row : SplitRow} (h : row ∈ rowsOfPosition rnd attribution p) :
    namedRows attribution p = attribution.filter fun r => r.position = p := by
  rw [rowsOfPosition_eq] at h
  obtain ⟨-, m, hm, -⟩ := mem_positionRows h
  obtain ⟨hmem, hpos⟩ := List.mem_filter.1 (List.mem_of_mem_head? hm)
  obtain rfl := of_decide_eq_true hpos
  exact namedRows_of_named _ (of_decide_eq_true (List.mem_filter.1 hmem).2)

/-- The trades of the rows are those of the shares. -/
theorem tradeIds_positionRows {p : String × String} {m : AttributionRow}
    {rest : List AttributionRow} :
    (positionRows rnd p (m :: rest)).filterMap SplitRow.tradeId =
      (sortedBy Prod.fst (perTrade rnd (m :: rest))).map Prod.fst := by
  have hshares : (shares rnd (m.positionQty.finite.getD 0) (m :: rest)).filterMap Prod.fst =
      (sortedBy Prod.fst (perTrade rnd (m :: rest))).map Prod.fst := by
    unfold shares
    dsimp only
    rw [List.filterMap_append, List.filterMap_map]
    have hrest : ∀ remainder qty : ℚ,
        ((if qtyEps < |remainder| ∨ perTrade rnd (m :: rest) = [] then
          [((none : Option ℤ), qty)] else []).filterMap Prod.fst) = [] := by
      intro remainder qty
      split_ifs <;> rfl
    rw [hrest, List.append_nil]
    exact congrFun (List.filterMap_eq_map (f := Prod.fst)) _
  rw [← hshares, positionRows]
  exact List.filterMap_map

theorem tradeNet_eq {attribution : List AttributionRow} {p : String × String}
    (h : namedRows attribution p = attribution.filter fun r => r.position = p) (t : ℤ) :
    tradeNet rnd attribution p t = sumWith rnd (((namedRows attribution p).filter fun r =>
      r.tradeId = some t).map fun r => r.openQtyEst.finite.getD 0) := by
  rw [tradeNet, h, List.filter_filter]
  congr 3
  funext r
  by_cases hr : r.position = p <;> simp [hr]

/-- The share of a trade is its net. -/
theorem trade_qty {attribution : List AttributionRow} {p : String × String} {row : SplitRow}
    (h : row ∈ rowsOfPosition rnd attribution p) {t : ℤ} (ht : row.tradeId = some t) :
    row.tradeQty = rnd (roundTo 6 (tradeNet rnd attribution p t)) := by
  have hnamed := namedRows_of_mem h
  rw [rowsOfPosition_eq] at h
  obtain ⟨-, m, hm, -, s, hs, htrade, hround⟩ := mem_positionRows h
  obtain ⟨rest, hgroup⟩ : ∃ rest, namedRows attribution p = m :: rest := List.head?_eq_some_iff.1 hm
  rcases List.mem_append.1 hs with hs | hs
  · obtain ⟨x, hx, rfl⟩ := List.mem_map.1 hs
    obtain rfl : x.1 = t := Option.some.inj (htrade.symm.trans ht)
    rw [hround, tradeNet_eq hnamed, ← perTrade_qty (mem_sortedBy.1 hx)]
  · have hnone : s.1 = none := by
      split_ifs at hs
      · rw [List.mem_singleton.1 hs]
      · rw [List.mem_singleton.1 hs]
      · exact absurd hs List.not_mem_nil
    rw [ht, hnone] at htrade
    cases htrade

/-- Without rounding the row without a trade has what the trades leave. -/
theorem rest_qty {attribution : List AttributionRow} {p : String × String} {row : SplitRow}
    (h : row ∈ rowsOfPosition id attribution p) (ht : row.tradeId = none) :
    row.tradeQty = roundTo 6 (row.positionQty - explained id attribution p) := by
  have hnamed := namedRows_of_mem h
  rw [rowsOfPosition_eq] at h
  obtain ⟨-, m, hm, hqty, s, hs, htrade, hround⟩ := mem_positionRows h
  obtain ⟨rest, hgroup⟩ : ∃ rest, namedRows attribution p = m :: rest := List.head?_eq_some_iff.1 hm
  have hexplained : explained id attribution p =
      ((perTrade id (namedRows attribution p)).map Prod.snd).sum := by
    rw [explained, rowsOfPosition_eq, hgroup, tradeIds_positionRows, ← hgroup, List.map_map,
      ← ((sortedBy_perm Prod.fst (perTrade id (namedRows attribution p))).map Prod.snd).sum_eq]
    refine congrArg List.sum (List.map_congr_left fun x hx => ?_)
    rw [Function.comp_apply, tradeNet_eq hnamed, ← perTrade_qty (mem_sortedBy.1 hx)]
  rw [shares_id] at hs
  rcases List.mem_append.1 hs with hs | hs
  · obtain ⟨x, -, rfl⟩ := List.mem_map.1 hs
    rw [ht] at htrade
    cases htrade
  · have hone : s = (none, m.positionQty.finite.getD 0 -
        ((perTrade id (namedRows attribution p)).map Prod.snd).sum) := by
      split_ifs at hs
      · exact List.mem_singleton.1 hs
      · exact absurd hs List.not_mem_nil
    rw [hround, hone, hqty, hexplained]
    rfl

/-! ## The rows of an attribution -/

variable (rnd) in
theorem keys_nodup (attribution : List AttributionRow) :
    ((splitRows rnd attribution).map fun r => (r.position, r.tradeId)).Nodup := by
  refine nodup_map_pair SplitRow.position SplitRow.tradeId fun p => ?_
  have hrows := rowsOfPosition_eq rnd attribution p
  rw [rowsOfPosition] at hrows
  rw [hrows]
  cases namedRows attribution p with
  | nil => exact List.nodup_nil
  | cons m rest =>
    rw [positionRows, List.map_map]
    exact shares_nodup _ _

/-- With any rounding the table takes the rows of every position. -/
theorem rowsKept (rnd : ℚ → ℚ) (attribution : List AttributionRow) : RowsKept rnd attribution where
  inserted table snapshot hrow hfree := by
    have hkeys : (((splitRows rnd attribution).map snapshot).map
        PositionSnapshotRow.key).Nodup := by
      refine List.Nodup.of_map (fun k => ((k.2.1, k.2.2.1), k.2.2.2)) ?_
      rw [List.map_map, List.map_map]
      refine (List.map_congr_left fun r _ => ?_) ▸ keys_nodup rnd attribution
      simp [PositionSnapshotRow.key, SplitRow.position, hrow]
    rw [Sql.Table.count_insertAllOrIgnore hkeys, List.length_map]
    intro r hr
    obtain ⟨x, hx, rfl⟩ := List.mem_map.1 hr
    exact hfree x hx
  unique := keys_nodup rnd attribution
  covered r hr hnamed := by
    have hgroup : r ∈ namedRows attribution r.position := by
      rw [namedRows_of_named attribution hnamed]
      exact List.mem_filter.2 ⟨hr, decide_eq_true rfl⟩
    rw [rowsOfPosition_eq]
    cases hrows : namedRows attribution r.position with
    | nil => exact absurd (hrows ▸ hgroup) List.not_mem_nil
    | cons m rest =>
      rw [positionRows, ne_eq, List.map_eq_nil_iff]
      exact shares_ne_nil _ _
  trade row hrow t ht := trade_qty (mem_rowsOfPosition hrow) ht

theorem sum_tradeQty {p : String × String} {m : AttributionRow} {rest : List AttributionRow}
    {qty : ℚ} (hqty : m.positionQty.finite = some qty) :
    |((positionRows id p (m :: rest)).map SplitRow.tradeQty).sum - qty| ≤
      qtyEps + (positionRows id p (m :: rest)).length * (1 / 2 / 10 ^ 6) := by
  have hrows : (positionRows id p (m :: rest)).map SplitRow.tradeQty =
      ((shares id qty (m :: rest)).map Prod.snd).map (roundTo 6) := by
    rw [positionRows, hqty, List.map_map, List.map_map]
    rfl
  have hlength : (positionRows id p (m :: rest)).length =
      ((shares id qty (m :: rest)).map Prod.snd).length := by
    rw [← List.length_map SplitRow.tradeQty, hrows, List.length_map]
  have hround := abs_sum_roundTo_sub_le 6 ((shares id qty (m :: rest)).map Prod.snd)
  have hsum := abs_sum_shares_sub_le qty (m :: rest)
  have htriangle := abs_add_le
    ((((shares id qty (m :: rest)).map Prod.snd).map (roundTo 6)).sum -
      ((shares id qty (m :: rest)).map Prod.snd).sum)
    (((shares id qty (m :: rest)).map Prod.snd).sum - qty)
  rw [hrows, hlength]
  rw [sub_add_sub_cancel] at htriangle
  linarith

/-- Without rounding the rows of every position add up. -/
theorem qtysAddUp {attribution : List AttributionRow} (hsame : SameQty attribution) :
    QtysAddUp id attribution where
  sum r hr hnamed qty hqty := by
    have hgroup := namedRows_of_named attribution hnamed
    have hmem : r ∈ namedRows attribution r.position := by
      rw [hgroup]
      exact List.mem_filter.2 ⟨hr, decide_eq_true rfl⟩
    rw [rowsOfPosition_eq]
    cases hrows : namedRows attribution r.position with
    | nil => exact absurd (hrows ▸ hmem) List.not_mem_nil
    | cons m rest =>
      have hm : m ∈ attribution.filter fun s => s.position = r.position := by
        rw [← hgroup, hrows]
        exact List.mem_cons_self
      obtain ⟨hm, hpos⟩ := List.mem_filter.1 hm
      exact sum_tradeQty ((hsame m hm r hr (of_decide_eq_true hpos)).trans hqty)
  rest row hrow ht := rest_qty (mem_rowsOfPosition hrow) ht

/-- Snapshot rows are kept with any rounding, and in exact arithmetic they add up. -/
theorem rowsAddUp {attribution : List AttributionRow} (hsame : SameQty attribution) :
    (∀ rnd, RowsKept rnd attribution) ∧ QtysAddUp id attribution :=
  ⟨fun rnd => rowsKept rnd attribution, qtysAddUp hsame⟩

/-- A row of a position, some of it a trade's. -/
def sampleShares (positionQty : Double) (tradeId : Option ℤ) (openQty : Double) :
    AttributionRow where
  accountId := some "U1"
  contractKey := some "AAPL|STK|||"
  tradeId := tradeId
  symbol := some "AAPL"
  secType := some "STK"
  expiry := none
  strike := .none
  optionRight := none
  positionQty := .number positionQty
  openQtyEst := .number openQty
  avgCost := .none
  markSource := none
  priceLast := .none
  priceMid := .none

/-- A row of ten shares. -/
def tenShares (tradeId : Option ℤ) (openQty : ℚ) : AttributionRow :=
  sampleShares (.fin 10) tradeId (.fin openQty)

/-- One trade explains more than the position, another works against it, and a third is noise. -/
theorem rowsAddUp_tenShares :
    (∀ rnd, RowsKept rnd [tenShares (some 7) 8, tenShares (some 3) (-1), tenShares (some 7) 5,
      tenShares (some 4) 0, tenShares none 10]) ∧
    QtysAddUp id [tenShares (some 7) 8, tenShares (some 3) (-1), tenShares (some 7) 5,
      tenShares (some 4) 0, tenShares none 10] :=
  rowsAddUp (by decide +kernel)

/-- A trade of `1e11` shares and one of a tenth, in a position of the double next to their sum. -/
def farShares : List AttributionRow :=
  [sampleShares (nearest (1000000000001 / 10)) (some 1) (nearest 100000000000),
    sampleShares (nearest (1000000000001 / 10)) (some 2) (nearest (1 / 10))]

/-- In doubles the remainder is zero, and the two rows miss the quantity by six millionths. -/
theorem not_qtysAddUp_farShares :
    SameQty farShares ∧ ¬ QtysAddUp nearestMultiple farShares := by
  refine ⟨by decide +kernel, fun h => ?_⟩
  have hsum : ∀ r ∈ farShares, ∀ qty ∈ r.positionQty.finite,
      |((rowsOfPosition nearestMultiple farShares r.position).map SplitRow.tradeQty).sum - qty| ≤
        qtyEps + (rowsOfPosition nearestMultiple farShares r.position).length *
          (1 / 2 / 10 ^ 6) := by
    intro r hr qty hqty
    have hnamed : ∀ r ∈ farShares, r.Named := by decide
    exact h.sum r hr (hnamed r hr) qty hqty
  exact absurd hsum (by decide +kernel)

end Portfolio.Snapshot
