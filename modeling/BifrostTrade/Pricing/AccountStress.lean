import BifrostTrade.Pricing.StressOrder

/-!
# The stress table of the account

The rows of the underlyings are added up by their shocks.  Every underlying with a spot has the rows
without a volatility shock, so these are complete; a row with one covers the underlyings whose
options imply a volatility, and says where that is not all of them (`account_stress`).
-/

noncomputable section

open Py Rounding

namespace Pricing

/-! ## The rows of a table by their shocks -/

/-- The shocks of a row. -/
def shocksOf (x : StressRow ℝ) : ℝ × ℝ := (x.spotShock, x.ivShock)

/-- The row of a pair of shocks. -/
def rowAt (t : StressTable ℝ) (k : ℝ × ℝ) : Option (StressRow ℝ) :=
  t.scenarios.find? fun x => shocksOf x = k

/-- What the account needs of a table. -/
structure TableRows (t : StressTable ℝ) : Prop where
  rows : t.scenarios.map shocksOf = shockGrid t.ivStressAvailable
  placed : ∀ x ∈ t.scenarios, IsPlaces 2 x.totalPnl ∧ ∃ c ∈ x.pnlChange, IsPlaces 2 c
  unshocked : ∀ x ∈ t.scenarios, shocksOf x = (0, 0) → x.pnlChange = some 0

theorem spotShocks_nodup : (spotShocks : List ℝ).Nodup := by
  norm_num [spotShocks]

theorem ivShocks_nodup (iv : Bool) : (if iv then (0 : ℝ) :: ivShocks else [0]).Nodup := by
  cases iv with
  | true => norm_num [ivShocks]
  | false => exact List.nodup_singleton 0

theorem shockGrid_nodup (iv : Bool) : (shockGrid iv).Nodup :=
  spotShocks_nodup.product (ivShocks_nodup iv)

/-- Where a key is at most once, the elements with it are the one that is found. -/
theorem filter_eq_find? {α κ : Type} [DecidableEq κ] {key : α → κ} {l : List α}
    (h : (l.map key).Nodup) (k : κ) :
    l.filter (fun a => key a = k) = (l.find? fun a => key a = k).toList := by
  induction l with
  | nil => rfl
  | cons a l ih =>
    rw [List.map_cons, List.nodup_cons] at h
    by_cases hk : key a = k
    · have hrest : l.filter (fun a => key a = k) = [] := by
        refine List.filter_eq_nil_iff.2 fun a' ha' heq => h.1 ?_
        rw [hk, ← of_decide_eq_true heq]
        exact List.mem_map_of_mem ha'
      rw [List.filter_cons_of_pos (by simpa using hk), List.find?_cons_of_pos (by simpa using hk),
        hrest, Option.toList_some]
    · rw [List.filter_cons_of_neg (by simpa using hk), List.find?_cons_of_neg (by simpa using hk),
        ih h.2]

section Rows

variable {t : StressTable ℝ} (ht : TableRows t)

theorem isSome_rowAt_iff (k : ℝ × ℝ) :
    (rowAt t k).isSome = true ↔ k ∈ t.scenarios.map shocksOf := by
  rw [rowAt, List.find?_isSome, List.mem_map]
  simp only [decide_eq_true_eq]

theorem mem_of_rowAt {k : ℝ × ℝ} {x : StressRow ℝ} (h : x ∈ rowAt t k) :
    x ∈ t.scenarios ∧ shocksOf x = k := by
  have hfound := List.find?_some h
  exact ⟨List.mem_of_find?_eq_some h, of_decide_eq_true hfound⟩

include ht

theorem filter_shocksOf (k : ℝ × ℝ) :
    t.scenarios.filter (fun x => shocksOf x = k) = (rowAt t k).toList :=
  filter_eq_find? (ht.rows ▸ shockGrid_nodup _) k

end Rows

/-! ## The rows of the account -/

/-- What the tables say of a pair of shocks, nothing where one has no such row. -/
def sumAt (tables : List (StressTable ℝ)) (f : StressRow ℝ → ℝ) (k : ℝ × ℝ) : ℝ :=
  (tables.map fun t => ((rowAt t k).map f).getD 0).sum

/-- The rows of the tables with these shocks. -/
def rowsAt (tables : List (StressTable ℝ)) (k : ℝ × ℝ) : List (StressRow ℝ) :=
  (tables.flatMap StressTable.scenarios).filter fun x => shocksOf x = k

section Tables

variable {tables : List (StressTable ℝ)} (htables : ∀ t ∈ tables, TableRows t)

theorem mem_of_mem_rowsAt {k : ℝ × ℝ} {x : StressRow ℝ} (hx : x ∈ rowsAt tables k) :
    (∃ t ∈ tables, x ∈ t.scenarios) ∧ shocksOf x = k := by
  obtain ⟨hmem, hk⟩ := List.mem_filter.1 hx
  exact ⟨List.mem_flatMap.1 hmem, of_decide_eq_true hk⟩

include htables

theorem rowsAt_eq (k : ℝ × ℝ) : rowsAt tables k = tables.flatMap fun t => (rowAt t k).toList := by
  rw [rowsAt, List.filter_flatMap]
  exact List.flatMap_congr fun t ht => filter_shocksOf (htables t ht) k

theorem sum_rowsAt (f : StressRow ℝ → ℝ) (k : ℝ × ℝ) :
    ((rowsAt tables k).map f).sum = sumAt tables f k := by
  rw [rowsAt_eq htables, sumAt, List.map_flatMap, List.flatMap_def, List.sum_flatten, List.map_map]
  refine congrArg List.sum (List.map_congr_left fun t _ => ?_)
  rw [Function.comp_apply]
  cases rowAt t k with
  | none => rfl
  | some x => exact List.sum_singleton

theorem length_rowsAt (k : ℝ × ℝ) :
    (rowsAt tables k).length = tables.countP fun t => (rowAt t k).isSome := by
  rw [rowsAt_eq htables, List.length_flatMap]
  clear htables
  induction tables with
  | nil => rfl
  | cons t tables ih =>
    rw [List.map_cons, List.sum_cons, ih, List.countP_cons, Nat.add_comm]
    cases rowAt t k with
    | none => rfl
    | some x => rfl

theorem places_total (k : ℝ × ℝ) :
    places 2 ((rowsAt tables k).map StressRow.totalPnl).sum =
      sumAt tables StressRow.totalPnl k := by
  rw [← sum_rowsAt htables]
  refine (IsPlaces.sum fun y hy => ?_).places_eq
  obtain ⟨x, hx, rfl⟩ := List.mem_map.1 hy
  obtain ⟨⟨t, ht, hxt⟩, -⟩ := mem_of_mem_rowsAt hx
  exact ((htables t ht).placed x hxt).1

theorem places_change (k : ℝ × ℝ) :
    places 2 ((rowsAt tables k).map fun x => x.pnlChange.getD 0).sum =
      sumAt tables (fun x => x.pnlChange.getD 0) k := by
  rw [← sum_rowsAt htables]
  refine (IsPlaces.sum fun y hy => ?_).places_eq
  obtain ⟨x, hx, rfl⟩ := List.mem_map.1 hy
  obtain ⟨⟨t, ht, hxt⟩, -⟩ := mem_of_mem_rowsAt hx
  obtain ⟨c, hc, hplaces⟩ := ((htables t ht).placed x hxt).2
  rw [Option.mem_def.1 hc]
  exact hplaces

theorem isSome_rowAt {t : StressTable ℝ} (ht : t ∈ tables) (k : ℝ × ℝ) :
    (rowAt t k).isSome = true ↔ k ∈ shockGrid t.ivStressAvailable := by
  rw [isSome_rowAt_iff, (htables t ht).rows]

end Tables

/-! ## The account -/

/-- What the rows of the account say of the tables. -/
structure AccountRows (tables : List (StressTable ℝ)) (a : AccountStress ℝ) : Prop where
  /-- The rows ascend, and are those of the tables that imply a volatility where one does. -/
  sorted : (a.scenarios.map fun x => toLex (x.spotShock, x.ivShock)).Pairwise (· < ·)
  rows : ∀ k, (∃ x ∈ a.scenarios, (x.spotShock, x.ivShock) = k) ↔
    k ∈ shockGrid (tables.any StressTable.ivStressAvailable)
  /-- Nothing is lost by rounding the sums. -/
  sums : ∀ x ∈ a.scenarios,
    x.totalPnl = sumAt tables StressRow.totalPnl (x.spotShock, x.ivShock) ∧
      x.pnlChange = sumAt tables (fun y => y.pnlChange.getD 0) (x.spotShock, x.ivShock)
  /-- A row is short of some underlying where it shocks a volatility that it does not imply. -/
  covers : ∀ x ∈ a.scenarios,
    x.isPartial = true ↔ x.ivShock ≠ 0 ∧ ∃ t ∈ tables, t.ivStressAvailable = false
  unshocked : ∀ x ∈ a.scenarios, x.spotShock = 0 → x.ivShock = 0 → x.pnlChange = 0

/-- The account's table: a row for each pair of shocks that a table has, in their order. -/
theorem scenarios_of_aggregateStress {perUnderlying : List (Option (StressTable ℝ))}
    (hnone : perUnderlying.reduceOption ≠ []) :
    ∃ a, ∃ ks : List (ℝ × ℝ), aggregateStress perUnderlying = some a ∧
      a.scenarios = ks.map (fun k =>
        accountRow perUnderlying.reduceOption.length (k, rowsAt perUnderlying.reduceOption k)) ∧
      (ks.map toLex).Pairwise (· < ·) ∧
      ∀ k, k ∈ ks ↔
        k ∈ (perUnderlying.reduceOption.flatMap StressTable.scenarios).map shocksOf := by
  unfold aggregateStress
  dsimp only
  generalize perUnderlying.reduceOption = tables at hnone ⊢
  rw [if_neg hnone]
  let combined := groupBy shocksOf (tables.flatMap StressTable.scenarios)
  let sorted := sortedBy (fun g => toLex g.1) combined
  have hkeys : combined.map Prod.fst =
      firstSeen ((tables.flatMap StressTable.scenarios).map shocksOf) := by
    rw [show combined = groupBy shocksOf (tables.flatMap StressTable.scenarios) from rfl, groupBy,
      List.map_map]
    exact List.map_id _
  have hperm : (sorted.map Prod.fst).Perm (combined.map Prod.fst) :=
    (sortedBy_perm _ combined).map _
  refine ⟨_, sorted.map Prod.fst, rfl, ?_, ?_, ?_⟩
  · rw [List.map_map]
    refine List.map_congr_left fun g hg => ?_
    have hgroup := (mem_groupBy.1 (mem_sortedBy.1 hg)).2
    rw [Function.comp_apply]
    exact congrArg _ (Prod.ext rfl hgroup)
  · have hnodup : (sorted.map Prod.fst).Nodup := hperm.nodup_iff.2 (hkeys ▸ firstSeen_nodup _)
    have hne : sorted.Pairwise fun g g' => g.1 ≠ g'.1 := List.pairwise_map.1 hnodup
    rw [List.map_map, List.pairwise_map]
    refine ((sortedBy_pairwise (fun g => toLex g.1) combined).and hne).imp ?_
    rintro g g' ⟨hle, hne⟩
    exact lt_of_le_of_ne hle fun heq => hne (toLex.injective heq)
  · intro k
    rw [hperm.mem_iff, hkeys, mem_firstSeen]

section Account

variable {tables : List (StressTable ℝ)} (htables : ∀ t ∈ tables, TableRows t)

include htables

theorem mem_shocks_iff (hne : tables ≠ []) (k : ℝ × ℝ) :
    k ∈ (tables.flatMap StressTable.scenarios).map shocksOf ↔
      k ∈ shockGrid (tables.any StressTable.ivStressAvailable) := by
  have hflat : k ∈ (tables.flatMap StressTable.scenarios).map shocksOf ↔
      ∃ t ∈ tables, k ∈ shockGrid t.ivStressAvailable := by
    rw [List.map_flatMap, List.mem_flatMap]
    exact exists_congr fun t => and_congr_right fun ht => by rw [(htables t ht).rows]
  obtain ⟨t, ht⟩ := List.exists_mem_of_ne_nil tables hne
  rw [hflat]
  simp only [mem_shockGrid, List.any_eq_true]
  constructor
  · rintro ⟨t', ht', hspot, hzero | ⟨hiv, hk⟩⟩
    · exact ⟨hspot, .inl hzero⟩
    · exact ⟨hspot, .inr ⟨⟨t', ht', hiv⟩, hk⟩⟩
  · rintro ⟨hspot, hzero | ⟨⟨t', ht', hiv⟩, hk⟩⟩
    · exact ⟨t, ht, hspot, .inl hzero⟩
    · exact ⟨t', ht', hspot, .inr ⟨hiv, hk⟩⟩

theorem short_iff {k : ℝ × ℝ}
    (hk : k ∈ shockGrid (tables.any StressTable.ivStressAvailable)) :
    (rowsAt tables k).length < tables.length ↔
      k.2 ≠ 0 ∧ ∃ t ∈ tables, t.ivStressAvailable = false := by
  obtain ⟨hspot, hiv⟩ := mem_shockGrid.1 hk
  have hmissing : ∀ t ∈ tables, (rowAt t k).isSome = false ↔
      k.2 ≠ 0 ∧ t.ivStressAvailable = false := by
    intro t ht
    rw [← Bool.not_eq_true, isSome_rowAt htables ht, mem_shockGrid, ← Bool.not_eq_true]
    constructor
    · intro h
      have hne : k.2 ≠ 0 := fun hzero => h ⟨hspot, .inl hzero⟩
      exact ⟨hne, fun ht' => h ⟨hspot, .inr ⟨ht', (hiv.resolve_left hne).2⟩⟩⟩
    · rintro ⟨hne, ht'⟩ ⟨-, hzero | ⟨hiv', -⟩⟩
      · exact hne hzero
      · exact ht' hiv'
  rw [length_rowsAt htables, List.countP_lt_length_iff]
  constructor
  · rintro ⟨t, ht, h⟩
    obtain ⟨hne, hfalse⟩ := (hmissing t ht).1 h
    exact ⟨hne, t, ht, hfalse⟩
  · rintro ⟨hne, t, ht, hfalse⟩
    exact ⟨t, ht, (hmissing t ht).2 ⟨hne, hfalse⟩⟩

theorem sumAt_unshocked : sumAt tables (fun x => x.pnlChange.getD 0) (0, 0) = 0 := by
  refine List.sum_eq_zero fun y hy => ?_
  obtain ⟨t, ht, rfl⟩ := List.mem_map.1 hy
  cases h : rowAt t (0, 0) with
  | none => rfl
  | some x =>
    obtain ⟨hx, hk⟩ := mem_of_rowAt h
    rw [Option.map_some, (htables t ht).unshocked x hx hk]
    rfl

end Account

/-- The account of tables whose rows are those of the grid. -/
theorem accountRows {perUnderlying : List (Option (StressTable ℝ))}
    (htables : ∀ t ∈ perUnderlying.reduceOption, TableRows t)
    (hne : perUnderlying.reduceOption ≠ []) :
    ∃ a, aggregateStress perUnderlying = some a ∧ AccountRows perUnderlying.reduceOption a := by
  obtain ⟨a, ks, ha, hscenarios, hsorted, hks⟩ := scenarios_of_aggregateStress hne
  generalize perUnderlying.reduceOption = tables at htables hne hscenarios hks ⊢
  have hgrid : ∀ k, k ∈ ks ↔ k ∈ shockGrid (tables.any StressTable.ivStressAvailable) :=
    fun k => (hks k).trans (mem_shocks_iff htables hne k)
  have hrow : ∀ x ∈ a.scenarios, ∃ k ∈ ks, x = accountRow tables.length (k, rowsAt tables k) := by
    intro x hx
    rw [hscenarios] at hx
    obtain ⟨k, hk, rfl⟩ := List.mem_map.1 hx
    exact ⟨k, hk, rfl⟩
  refine ⟨a, ha, ?_, ?_, ?_, ?_, ?_⟩
  · rw [hscenarios, List.map_map]
    exact hsorted
  · intro k
    rw [← hgrid, hscenarios]
    constructor
    · rintro ⟨x, hx, rfl⟩
      obtain ⟨k, hk, rfl⟩ := List.mem_map.1 hx
      exact hk
    · exact fun hk => ⟨_, List.mem_map_of_mem hk, rfl⟩
  · intro x hx
    obtain ⟨k, -, rfl⟩ := hrow x hx
    exact ⟨places_total htables k, places_change htables k⟩
  · intro x hx
    obtain ⟨k, hk, rfl⟩ := hrow x hx
    exact decide_eq_true_iff.trans (short_iff htables ((hgrid k).1 hk))
  · intro x hx hspot hiv
    obtain ⟨k, -, rfl⟩ := hrow x hx
    obtain rfl : k = (0, 0) := Prod.ext hspot hiv
    exact (places_change htables _).trans (sumAt_unshocked htables)

theorem reduceOption_eq_nil_iff {α : Type} {l : List (Option α)} :
    l.reduceOption = [] ↔ ∀ x ∈ l, x = none := by
  rw [List.eq_nil_iff_forall_not_mem]
  constructor
  · intro h x hx
    refine Option.eq_none_iff_forall_not_mem.2 fun a ha => h a ?_
    exact List.reduceOption_mem_iff.2 (Option.mem_def.1 ha ▸ hx)
  · intro h a ha
    exact Option.some_ne_none a (h _ (List.reduceOption_mem_iff.1 ha))

/-- The account has a table where some underlying has one. -/
theorem aggregateStress_law {perUnderlying : List (Option (StressTable ℝ))}
    (htables : ∀ t ∈ perUnderlying.reduceOption, TableRows t) :
    (aggregateStress perUnderlying = none ↔ ∀ t ∈ perUnderlying, t = none) ∧
      ∀ a ∈ aggregateStress perUnderlying, AccountRows perUnderlying.reduceOption a := by
  rw [← reduceOption_eq_nil_iff]
  by_cases hempty : perUnderlying.reduceOption = []
  · have hagg : aggregateStress perUnderlying = none := by
      rw [aggregateStress, hempty]
      exact if_pos rfl
    refine ⟨iff_of_true hagg hempty, fun a ha => ?_⟩
    rw [hagg] at ha
    exact absurd ha (Option.not_mem_none a)
  · obtain ⟨a, ha, hlaw⟩ := accountRows htables hempty
    rw [ha]
    refine ⟨iff_of_false (Option.some_ne_none a) hempty, fun a' ha' => ?_⟩
    obtain rfl := Option.some.inj ha'
    exact hlaw

/-! ## From the books -/

variable (today : Date) (r : ℝ)

theorem stressMatrix_rows (b : Book ℝ) : ∃ t, stressMatrix realMath today r b = .ok t ∧
    (t = none ↔ ∀ spot ∈ b.spot, spot ≤ 0) ∧ ∀ table ∈ t, TableRows table := by
  by_cases h : ∀ spot ∈ b.spot, spot ≤ 0
  · refine ⟨none, ?_, iff_of_true rfl h, fun table ht => absurd ht (Option.not_mem_none table)⟩
    rw [stressMatrix]
    cases hb : b.spot with
    | none => rfl
    | some spot => exact if_pos (h spot hb)
  · simp only [not_forall, not_le] at h
    obtain ⟨spot, hb, hspot⟩ := h
    obtain ⟨legs, -, -, -, htable⟩ := stressMatrix_ok today r b hb hspot
    refine ⟨_, htable, iff_of_false (Option.some_ne_none _) fun h => hspot.not_ge (h spot hb), ?_⟩
    intro table ht
    obtain rfl := Option.some.inj ht
    refine ⟨?_, fun x hx => ?_, fun x hx hk => ?_⟩
    · rw [List.map_map]
      exact List.map_id _
    · obtain ⟨shocks, -, rfl⟩ := List.mem_map.1 hx
      exact ⟨isPlaces_places 2 _, _, rfl, (isPlaces_places 2 _).sub (isPlaces_places 2 _)⟩
    · obtain ⟨shocks, -, rfl⟩ := List.mem_map.1 hx
      obtain rfl : shocks = (0, 0) := hk
      exact congrArg some (sub_self _)

/-- **The account adds up its underlyings.**  It has a table where some underlying has a spot; the
rows ascend and are all that some underlying has, each the sum over the underlyings that have it,
with nothing lost by rounding.  The rows without a volatility shock cover every underlying with a
spot, and the row without shocks changes nothing. -/
theorem account_stress (books : List (Book ℝ)) : ∃ tables,
    List.Forall₂ (fun b t => stressMatrix realMath today r b = .ok t) books tables ∧
    (aggregateStress tables = none ↔ ∀ b ∈ books, ∀ spot ∈ b.spot, spot ≤ 0) ∧
    ∀ a ∈ aggregateStress tables, AccountRows tables.reduceOption a := by
  choose g hg hnone hrows using stressMatrix_rows today r
  have htables : ∀ t ∈ (books.map g).reduceOption, TableRows t := by
    intro t ht
    obtain ⟨b, -, hb⟩ := List.mem_map.1 (List.reduceOption_mem_iff.1 ht)
    exact hrows b t hb
  obtain ⟨hagg, hlaw⟩ := aggregateStress_law htables
  refine ⟨books.map g, List.forall₂_map_right_iff.2 (List.forall₂_same.2 fun b _ => hg b),
    hagg.trans ?_, hlaw⟩
  rw [List.forall_mem_map]
  exact forall₂_congr fun b _ => hnone b

end Pricing

end
