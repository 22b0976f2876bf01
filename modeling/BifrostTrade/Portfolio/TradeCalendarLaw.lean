import BifrostTrade.Lib.LotAlignment
import BifrostTrade.Portfolio.TradeCalendar

/-!
# The option calendar of a trade and its slices

Under a trade filter `get_performance_stats` pairs the option fills of the trade as they are, and
not the slices that the trade has of them.  The calendar is that of the slices when every fill that
gets paired, as it is or as its slice, is the trade's as a whole (`pairsSlices_of_pairedWhole`).
-/

namespace Portfolio

open Py FifoMatching

/-! ## The pairing reads the size and the commission of a leg -/

/-- An execution with the figures as the pairing reads them. -/
def Execution.asPaired (e : Execution) : Execution :=
  { e with
    quantity := (finiteAbs (e.quantity.getD (.fin 0))).elim (some .nan) fun q => some (.fin q)
    commission := some (.fin (finiteOrZero e.commission))
    realizedPnl := none }

/-- The leg, as far as the pairing looks at it. -/
def Leg.asPaired (l : Leg) : Leg := { l with exec := l.exec.asPaired }

theorem workEntry_asPaired (pos : ℕ) (e : Execution) :
    workEntry pos e.asPaired = (workEntry pos e).map (Lot.map Leg.asPaired) := by
  have hside : sideOf e.asPaired = sideOf e := rfl
  have hqty : finiteAbs (e.asPaired.quantity.getD (.fin 0)) =
      finiteAbs (e.quantity.getD (.fin 0)) := by
    unfold Execution.asPaired
    cases hq : e.quantity.getD (.fin 0) <;> simp [finiteAbs]
  have hcomm : (e.asPaired.commission.bind finiteValue).getD 0 =
      (e.commission.bind finiteValue).getD 0 := rfl
  simp only [workEntry, hside, hqty, hcomm, Option.bind_eq_bind, Option.map_bind,
    Function.comp_def, apply_ite (Option.map _), Option.map_none, Option.map_some]
  rfl

/-- The executions that are grouped. -/
def Execution.Grouped (e : Execution) : Prop := e.isOpt ∧ e.execId.isSome ∧ (sideOf e).isSome

instance (e : Execution) : Decidable e.Grouped := inferInstanceAs (Decidable (_ ∧ _))

theorem orderedMatches_asPaired (sorted : List Execution) :
    orderedMatches (sorted.map Execution.asPaired) =
      (orderedMatches sorted).map (Match.map Leg.asPaired) := by
  have hwork : (sorted.map Execution.asPaired).filterMap (workEntry 0) =
      (sorted.filterMap (workEntry 0)).map (Lot.map Leg.asPaired) := by
    rw [List.filterMap_map, List.map_filterMap]
    exact List.filterMap_congr fun x _ => workEntry_asPaired 0 x
  have hmap := queueFifo_map qtyEps Leg.asPaired [] (sorted.filterMap (workEntry 0))
  rw [List.map_nil, ← hwork] at hmap
  rw [orderedMatches, orderedMatches, hmap]

theorem contractExecs_asPaired (executions : List Execution) (k : GroupKey) :
    contractExecs (executions.map Execution.asPaired) k =
      (contractExecs executions k).map Execution.asPaired := by
  have hkey : ∀ e : Execution, groupKey e.asPaired = groupKey e := fun _ => rfl
  have hp : ∀ e : Execution, decide (e.asPaired.isOpt ∧ e.asPaired.execId.isSome ∧
      (sideOf e.asPaired).isSome) = decide (e.isOpt ∧ e.execId.isSome ∧ (sideOf e).isSome) :=
    fun _ => rfl
  simp only [contractExecs, List.filter_map, Function.comp_def, hkey, hp]

section Pairs

variable (chicago : ℚ → Option Date)

/-- Where only executions in `p` are paired, the pairs of a group are those of `p`. -/
theorem contractPairs_filter (p : Execution → Bool) {executions : List Execution} {k : GroupKey}
    (h : ∀ m ∈ contractPairs chicago executions k,
      p m.opening.exec = true ∧ p m.closing.exec = true) :
    (contractPairs chicago executions k).map (Match.map Leg.asPaired) =
      contractPairs chicago ((executions.filter p).map Execution.asPaired) k := by
  have hexecs : contractExecs (executions.filter p) k = (contractExecs executions k).filter p := by
    simp only [contractExecs, List.filter_filter]
    exact List.filter_congr fun e _ => by simp only [Bool.and_comm, Bool.and_left_comm]
  have hkey : ∀ e : Execution, fifoSortKey chicago e.asPaired = fifoSortKey chicago e :=
    fun _ => rfl
  rw [contractPairs] at h
  have hwithin : ∀ m ∈ orderedMatches (sortedBy (fifoSortKey chicago) (contractExecs executions k)),
      p m.opening.exec = p m.closing.exec := fun m hm => by rw [(h m hm).1, (h m hm).2]
  have hall := orderedMatches_filter p hwithin
  rw [filter_sortedBy, List.filter_eq_self.2 fun m hm => (h m hm).2] at hall
  rw [contractPairs, contractPairs, contractExecs_asPaired, hexecs, sortedBy_map, ← hall,
    ← orderedMatches_asPaired]
  simp only [hkey]

/-- The option fills of a group that lie over each other, a buy and a sell at a time. -/
def laidOut (executions : List Execution) (k : GroupKey) : List (Leg × Leg) :=
  let work := groupWork chicago (contractExecs executions k)
  sideBySide qtyEps (row qtyEps .buy work) (row qtyEps .sell work)

/-- The pairs of a group join fills that lie over each other. -/
theorem contractPairs_forall_iff (P : Execution → Prop) (executions : List Execution)
    (k : GroupKey) :
    (∀ m ∈ contractPairs chicago executions k, P m.opening.exec ∧ P m.closing.exec) ↔
      ∀ ab ∈ laidOut chicago executions k, P ab.1.exec ∧ P ab.2.exec := by
  have hsymm : ∀ a b : Leg, (P a.exec ∧ P b.exec) ↔ (P b.exec ∧ P a.exec) := fun _ _ => and_comm
  rw [laidOut, ← queueFifo_forall_iff qtyEps_nonneg hsymm, ← groupMatches_eq, contractPairs,
    ← groupMatches_unplaced, List.forall_mem_map]
  exact Iff.rfl

theorem laidOut_eq (executions : List Execution) (k : GroupKey) :
    laidOut chicago executions k =
      (groupMatches chicago (contractExecs executions k)).map Match.buyFirst := by
  have hpairs := queueFifo_buyFirst qtyEps_nonneg (.nil)
    (groupWork chicago (contractExecs executions k))
  rw [List.nil_append, ← groupMatches_eq] at hpairs
  exact hpairs.symm

theorem laidOut_of_ne {executions : List Execution} {k k' : GroupKey}
    (h : ∀ e ∈ executions, groupKey e = k') (hk : k ≠ k') : laidOut chicago executions k = [] := by
  have hnone : contractExecs executions k = [] :=
    List.filter_eq_nil_iff.2 fun e he heq =>
      hk ((of_decide_eq_true heq).symm.trans (h e (List.mem_of_mem_filter he)))
  rw [laidOut, hnone]
  exact sideBySide_nil_left ..

theorem contractPairs_eq_nil_of_laidOut {executions : List Execution} {k : GroupKey}
    (h : laidOut chicago executions k = []) : contractPairs chicago executions k = [] := by
  refine List.eq_nil_iff_forall_not_mem.2 fun m hm => ?_
  have hnone := (contractPairs_forall_iff chicago (fun _ => False) executions k).2
    fun ab hab => by rw [h] at hab; exact absurd hab List.not_mem_nil
  exact (hnone m hm).1

/-- The pairs of the groups in turn. -/
theorem optPairs_eq_contractPairs (executions : List Execution) :
    (computeOptPairMapAndPairs chicago executions).2 =
      (firstSeen ((executions.filter fun e => e.Grouped).map groupKey)).flatMap fun k =>
        (contractPairs chicago executions k).map fun m => toOptPair k (m.map Leg.asPaired) := by
  simp only [computeOptPairMapAndPairs, optMatches, optGroups, groupBy, List.map_flatMap,
    List.flatMap_map, List.map_map]
  refine List.flatMap_congr fun k _ => ?_
  rw [contractPairs, ← groupMatches_unplaced, List.map_map]
  rfl

end Pairs

/-! ## Pairing the slices -/

/-- The slices of a trade. -/
def slicesOf (t : ℤ) (legs : List TradeExecution) : List TradeExecution :=
  legs.filterMap fun e => sliceExecutionForInstanceOptView e t

theorem slicesOf_cons_none {t : ℤ} {e : TradeExecution}
    (h : sliceExecutionForInstanceOptView e t = none) (legs : List TradeExecution) :
    slicesOf t (e :: legs) = slicesOf t legs :=
  List.filterMap_cons_none h

theorem slicesOf_cons_some {t : ℤ} {e s : TradeExecution}
    (h : sliceExecutionForInstanceOptView e t = some s) (legs : List TradeExecution) :
    slicesOf t (e :: legs) = s :: slicesOf t legs :=
  List.filterMap_cons_some h

/-- The size a leg enters the pairing with. -/
def lotSize (e : Execution) : Option ℚ := finiteAbs (e.quantity.getD (.fin 0))

/-- Two executions enter the pairing with one size and one commission. -/
def SameLot (e s : Execution) : Prop :=
  lotSize s = lotSize e ∧ finiteOrZero s.commission = finiteOrZero e.commission

/-- A fill that is the trade's as a whole: it is not split, or its split of the trade has its
size, and bears all of its commission. -/
def WholeFor (t : ℤ) (e : TradeExecution) : Prop :=
  e.fillSplits = [] ∨
    netQtyEps < splitSize e.fillSplits ∧ ∃ mine, splitOf e.fillSplits t = some mine ∧
      lotSize e.toExecution = some |mine.quantity| ∧
      (finiteOrZero e.commission = 0 ∨ |mine.quantity| = splitSize e.fillSplits)

/-- A slice is the execution with other figures. -/
theorem slice_eq {e s : TradeExecution} {t : ℤ}
    (h : sliceExecutionForInstanceOptView e t = some s) :
    s.toExecution = { e.toExecution with
      quantity := s.quantity
      commission := s.commission
      realizedPnl := s.realizedPnl } := by
  unfold sliceExecutionForInstanceOptView at h
  dsimp only at h
  split_ifs at h with hsplit htiny htrade
  · obtain ⟨mine, -, rfl⟩ := Option.map_eq_some_iff.1 h
    rfl
  · obtain rfl := Option.some.inj h
    rfl

theorem slice_id {e s : TradeExecution} {t : ℤ}
    (h : sliceExecutionForInstanceOptView e t = some s) :
    s.accountExecutionsId = e.accountExecutionsId := by
  rw [slice_eq h]

theorem asPaired_of_slice {e s : TradeExecution} {t : ℤ}
    (h : sliceExecutionForInstanceOptView e t = some s)
    (hsame : SameLot e.toExecution s.toExecution) :
    s.toExecution.asPaired = e.toExecution.asPaired := by
  obtain ⟨hsize, hcomm⟩ := hsame
  simp only [lotSize] at hsize
  simp only [Execution.asPaired, hsize, hcomm]
  rw [slice_eq h]

theorem slicesOf_nodup (t : ℤ) {legs : List TradeExecution}
    (h : (legs.map fun e => e.accountExecutionsId).Nodup) :
    ((slicesOf t legs).map fun s => s.accountExecutionsId).Nodup := by
  have hsub : ((slicesOf t legs).map fun s => s.accountExecutionsId).Sublist
      (legs.map fun e => e.accountExecutionsId) := by
    induction legs with
    | nil => exact .slnil
    | cons e legs ih =>
      have ih := ih (List.nodup_cons.1 h).2
      cases hs : sliceExecutionForInstanceOptView e t with
      | none =>
        rw [slicesOf_cons_none hs]
        exact ih.cons _
      | some s =>
        rw [slicesOf_cons_some hs, List.map_cons, List.map_cons,
          slice_id hs]
        exact ih.cons_cons _
  exact h.sublist hsub

theorem asSummed_weighted {e s : TradeExecution} {t : ℤ}
    (h : sliceExecutionForInstanceOptView e t = some s) (accountId : Option String)
    (strategyOpportunityId : Option ℤ) :
    (weighted (tradeFilter accountId strategyOpportunityId t) e).asSummed =
      s.toExecution.asSummed := by
  obtain ⟨hcomm, hreal⟩ := finiteOrZero_commission_slice h
  simp only [Execution.asSummed, weighted, perfInstWeight, tradeFilter, finiteOrZero_fin, hcomm,
    hreal]
  unfold sliceExecutionForInstanceOptView at h
  dsimp only at h
  split_ifs at h
  · obtain ⟨mine, -, rfl⟩ := Option.map_eq_some_iff.1 h
    rfl
  · obtain rfl := Option.some.inj h
    rfl

/-- The rows of the other security types are those of the slices, where each fill has one. -/
theorem otherRows_weighted_slices {t : ℤ} {executions : List TradeExecution}
    (h : ∀ e ∈ executions, (sliceExecutionForInstanceOptView e t).isSome)
    (accountId : Option String) (strategyOpportunityId : Option ℤ) (gran : Granularity) :
    otherRows gran (executions.map (weighted (tradeFilter accountId strategyOpportunityId t))) =
      otherRows gran ((slicesOf t executions).map TradeExecution.toExecution) := by
  rw [← otherRows_asSummed, ← otherRows_asSummed _ ((slicesOf t executions).map _)]
  congr 1
  induction executions with
  | nil => rfl
  | cons e executions ih =>
    obtain ⟨s, hs⟩ := Option.isSome_iff_exists.1 (h e List.mem_cons_self)
    have ih := ih fun e' he' => h e' (List.mem_cons_of_mem _ he')
    rw [slicesOf_cons_some hs, List.map_cons, List.map_cons, List.map_cons, List.map_cons, ih,
      asSummed_weighted hs]

/-- A fill of the trade is as a whole the trade's where its slice enters the pairing as it. -/
theorem wholeFor_iff {e : TradeExecution} {t : ℤ}
    (hattr : e.tradeId = some t ∨ ∃ a ∈ e.fillSplits, a.tradeId = t) :
    WholeFor t e ↔
      ∃ s, sliceExecutionForInstanceOptView e t = some s ∧
        SameLot e.toExecution s.toExecution := by
  by_cases hsplit : e.fillSplits = []
  · have htrade : e.tradeId = some t := by
      rcases hattr with htrade | ⟨a, ha, -⟩
      · exact htrade
      · rw [hsplit] at ha
        cases ha
    refine iff_of_true (Or.inl hsplit) ⟨e, slice_of_whole hsplit htrade, rfl, rfl⟩
  have hpos := netQtyEps_pos
  unfold WholeFor sliceExecutionForInstanceOptView
  dsimp only
  rw [if_pos hsplit]
  by_cases htiny : splitSize e.fillSplits ≤ netQtyEps
  · rw [if_pos htiny]
    simp [hsplit, not_lt.2 htiny]
  rw [if_neg htiny]
  cases hmine : splitOf e.fillSplits t with
  | none => simp [hsplit]
  | some mine =>
    have hne : splitSize e.fillSplits ≠ 0 := (hpos.trans (not_le.1 htiny)).ne'
    have hcomm : finiteOrZero e.commission * (|mine.quantity| / splitSize e.fillSplits) =
        finiteOrZero e.commission ↔
          finiteOrZero e.commission = 0 ∨ |mine.quantity| = splitSize e.fillSplits := by
      rw [mul_right_eq_self₀, div_eq_one_iff_eq hne, or_comm]
    have hslice : ∀ w, SameLot e.toExecution (sliceOfSplit e mine w).toExecution ↔
        lotSize e.toExecution = some |mine.quantity| ∧
          finiteOrZero e.commission * w = finiteOrZero e.commission := by
      intro w
      rw [SameLot, ← finiteOrZero_prorate, eq_comm]
      rfl
    simp only [hsplit, false_or, Option.some.injEq, exists_eq_left', not_le.1 htiny, true_and,
      Option.map_some, hslice, hcomm]


/-! ## The calendar of the slices -/

section Law

variable (chicago : ℚ → Option Date) (chicagoMidnight : Date → ℚ)

/-- The fill behind a leg is the trade's as a whole. -/
def WholeLeg (t : ℤ) (legs : List TradeExecution) (l : Leg) : Prop :=
  ∃ e ∈ legs, e.accountExecutionsId = l.exec.accountExecutionsId ∧ WholeFor t e

/-- What is paired of the trade's fills, or of its slices, is the trade's as a whole: buys and
sells of a group that do not lie over each other are free.  The first fill read of a group that has
pairs is sliced at least, which keeps the groups in order. -/
structure PairedWhole (t : ℤ) (legs : List TradeExecution) : Prop where
  fills : ∀ k, ∀ ab ∈ laidOut chicago (legs.map TradeExecution.toExecution) k,
    WholeLeg t legs ab.1 ∧ WholeLeg t legs ab.2
  slices : ∀ k, ∀ ab ∈ laidOut chicago ((slicesOf t legs).map TradeExecution.toExecution) k,
    WholeLeg t legs ab.1 ∧ WholeLeg t legs ab.2
  first : ∀ k, laidOut chicago (legs.map TradeExecution.toExecution) k ≠ [] → ∀ e ∈ legs,
    (contractExecs (legs.map TradeExecution.toExecution) k).head? = some e.toExecution →
      (sliceExecutionForInstanceOptView e t).isSome

variable {chicago}

/-- The whole fills enter the pairing as their slices. -/
theorem filter_whole_slicesOf {t : ℤ} {legs : List TradeExecution} {p : Execution → Bool}
    (hattr : ∀ e ∈ legs, e.tradeId = some t ∨ ∃ a ∈ e.fillSplits, a.tradeId = t)
    (hp : ∀ e ∈ legs, p e.toExecution = true → WholeFor t e)
    (hid : ∀ x y : Execution, x.accountExecutionsId = y.accountExecutionsId → p x = p y) :
    (((slicesOf t legs).map TradeExecution.toExecution).filter p).map Execution.asPaired =
      ((legs.map TradeExecution.toExecution).filter p).map Execution.asPaired := by
  induction legs with
  | nil => rfl
  | cons e legs ih =>
    have ih := ih (fun e' he' => hattr e' (List.mem_cons_of_mem _ he'))
      fun e' he' => hp e' (List.mem_cons_of_mem _ he')
    by_cases hpe : p e.toExecution = true
    · obtain ⟨s, hs, hsame⟩ := (wholeFor_iff (hattr e List.mem_cons_self)).1
        (hp e List.mem_cons_self hpe)
      have hps : p s.toExecution = true := (hid _ _ (slice_id hs)).trans hpe
      rw [slicesOf_cons_some hs, List.map_cons, List.map_cons, List.filter_cons_of_pos hps,
        List.filter_cons_of_pos hpe, List.map_cons, List.map_cons, ih, asPaired_of_slice hs hsame]
    · rw [List.map_cons, List.filter_cons_of_neg hpe, ← ih]
      cases hs : sliceExecutionForInstanceOptView e t with
      | none => rw [slicesOf_cons_none hs]
      | some s =>
        have hps : ¬ p s.toExecution = true := by rwa [hid _ _ (slice_id hs)]
        rw [slicesOf_cons_some hs, List.map_cons, List.filter_cons_of_neg hps]

/-- The group keys of the slices are those of the fills that have one. -/
theorem groupKeys_slicesOf (t : ℤ) (legs : List TradeExecution) :
    (((slicesOf t legs).map TradeExecution.toExecution).filter fun e => e.Grouped).map groupKey =
      ((legs.filter fun e => e.toExecution.Grouped).filter fun e =>
        (sliceExecutionForInstanceOptView e t).isSome).map fun e => groupKey e.toExecution := by
  induction legs with
  | nil => rfl
  | cons e legs ih =>
    cases hs : sliceExecutionForInstanceOptView e t with
    | none =>
      rw [slicesOf_cons_none hs, ih]
      by_cases hg : e.toExecution.Grouped
      · rw [List.filter_cons_of_pos (by simpa using hg), List.filter_cons_of_neg (by simp [hs])]
      · rw [List.filter_cons_of_neg (by simpa using hg)]
    | some s =>
      have hgrouped : s.toExecution.Grouped ↔ e.toExecution.Grouped := by
        rw [slice_eq hs]
        exact Iff.rfl
      have hkey : groupKey s.toExecution = groupKey e.toExecution := by
        rw [slice_eq hs]
        rfl
      rw [slicesOf_cons_some hs, List.map_cons]
      by_cases hg : e.toExecution.Grouped
      · rw [List.filter_cons_of_pos (by simpa using hgrouped.2 hg), List.map_cons, ih, hkey,
          List.filter_cons_of_pos (by simpa using hg), List.filter_cons_of_pos (by simp [hs]),
          List.map_cons]
      · rw [List.filter_cons_of_neg (by simpa using fun hg' => hg (hgrouped.1 hg')), ih,
          List.filter_cons_of_neg (by simpa using hg)]

theorem groupKeys_legs (legs : List TradeExecution) :
    ((legs.map TradeExecution.toExecution).filter fun e => e.Grouped).map groupKey =
      (legs.filter fun e => e.toExecution.Grouped).map fun e => groupKey e.toExecution := by
  rw [List.filter_map, List.map_map]
  simp only [Function.comp_def]

theorem contractExecs_legs (legs : List TradeExecution) (k : GroupKey) :
    contractExecs (legs.map TradeExecution.toExecution) k =
      ((legs.filter fun e => e.toExecution.Grouped).filter fun e =>
        groupKey e.toExecution = k).map TradeExecution.toExecution := by
  have hgrouped : ∀ e : Execution, decide (e.isOpt ∧ e.execId.isSome ∧ (sideOf e).isSome) =
      decide e.Grouped := fun _ => rfl
  simp only [contractExecs, List.filter_map, Function.comp_def, hgrouped]

/-- The fills of the trade and its slices are paired alike. -/
theorem optPairs_slicesOf {t : ℤ} {legs : List TradeExecution}
    (hnd : (legs.map fun e => e.accountExecutionsId).Nodup)
    (hattr : ∀ e ∈ legs, e.tradeId = some t ∨ ∃ a ∈ e.fillSplits, a.tradeId = t)
    (h : PairedWhole chicago t legs) :
    (computeOptPairMapAndPairs chicago (legs.map TradeExecution.toExecution)).2 =
      (computeOptPairMapAndPairs chicago
        ((slicesOf t legs).map TradeExecution.toExecution)).2 := by
  classical
  let p : Execution → Bool := fun x => decide (∃ e ∈ legs,
    e.accountExecutionsId = x.accountExecutionsId ∧ WholeFor t e)
  have hp : ∀ e ∈ legs, p e.toExecution = true → WholeFor t e := by
    intro e he hpe
    obtain ⟨e', he', hid, hwhole⟩ := of_decide_eq_true hpe
    rwa [List.inj_on_of_nodup_map hnd he he' hid.symm]
  have hid : ∀ x y : Execution, x.accountExecutionsId = y.accountExecutionsId → p x = p y := by
    intro x y hxy
    simp only [p, hxy]
  have hpairs : ∀ executions k, (∀ ab ∈ laidOut chicago executions k,
      WholeLeg t legs ab.1 ∧ WholeLeg t legs ab.2) →
      (contractPairs chicago executions k).map (Match.map Leg.asPaired) =
        contractPairs chicago ((executions.filter p).map Execution.asPaired) k := by
    intro executions k hwhole
    refine contractPairs_filter chicago p ?_
    rw [contractPairs_forall_iff chicago (fun x => p x = true)]
    intro ab hab
    obtain ⟨ha, hb⟩ := hwhole ab hab
    exact ⟨decide_eq_true ha, decide_eq_true hb⟩
  have hgroup : ∀ k, (contractPairs chicago (legs.map TradeExecution.toExecution) k).map
        (fun m => toOptPair k (m.map Leg.asPaired)) =
      (contractPairs chicago ((slicesOf t legs).map TradeExecution.toExecution) k).map
        fun m => toOptPair k (m.map Leg.asPaired) := by
    intro k
    have hsame := hpairs _ k (h.fills k)
    rw [← filter_whole_slicesOf hattr hp hid, ← hpairs _ k (h.slices k)] at hsame
    have hmap := congrArg (List.map (toOptPair k)) hsame
    rwa [List.map_map, List.map_map] at hmap
  rw [optPairs_eq_contractPairs, optPairs_eq_contractPairs, groupKeys_slicesOf]
  simp only [hgroup]
  rw [groupKeys_legs]
  refine flatMap_firstSeen_filter fun k hne e he => ?_
  have hmem : e ∈ legs := List.mem_of_mem_filter (List.mem_of_mem_filter (List.mem_of_mem_head? he))
  refine h.first k (fun hnil => hne ?_) e hmem ?_
  · rw [← hgroup k, contractPairs_eq_nil_of_laidOut chicago hnil, List.map_nil]
  · rw [contractExecs_legs, List.head?_map, he, Option.map_some]

/-- A leg that is paired has its date among the slices too. -/
theorem legChicagoDate_slicesOf {t : ℤ} {legs : List TradeExecution}
    (hnd : (legs.map fun e => e.accountExecutionsId).Nodup)
    (hattr : ∀ e ∈ legs, e.tradeId = some t ∨ ∃ a ∈ e.fillSplits, a.tradeId = t)
    {e : TradeExecution} (he : e ∈ legs) (hwhole : WholeFor t e) {eid : ℤ}
    (heid : e.accountExecutionsId = some eid) :
    legChicagoDate chicago (legs.map TradeExecution.toExecution) eid =
      legChicagoDate chicago ((slicesOf t legs).map TradeExecution.toExecution) eid := by
  obtain ⟨s, hs, -⟩ := (wholeFor_iff (hattr e he)).1 hwhole
  have hmem : s ∈ slicesOf t legs := List.mem_filterMap.2 ⟨e, he, hs⟩
  have hids : ∀ l : List TradeExecution, (l.map fun e => e.accountExecutionsId).Nodup →
      ((l.map TradeExecution.toExecution).map Execution.accountExecutionsId).Nodup := by
    intro l hl
    rwa [List.map_map]
  rw [legChicagoDate_of_mem (hids legs hnd) (List.mem_map_of_mem he) heid,
    legChicagoDate_of_mem (hids _ (slicesOf_nodup t hnd)) (List.mem_map_of_mem hmem)
      ((slice_id hs).trans heid), slice_eq hs]
  rfl

/-- The option calendar of the fills is that of the slices. -/
theorem optCalendarOf_slicesOf {t : ℤ} {legs : List TradeExecution}
    (hnd : (legs.map fun e => e.accountExecutionsId).Nodup)
    (hid : ∀ e ∈ legs, e.accountExecutionsId.isSome)
    (hattr : ∀ e ∈ legs, e.tradeId = some t ∨ ∃ a ∈ e.fillSplits, a.tradeId = t)
    (h : PairedWhole chicago t legs) (sinceTs untilTs : Option ℚ) (gran : Granularity) :
    optCalendarOf chicago chicagoMidnight legs sinceTs untilTs gran =
      optCalendarOf chicago chicagoMidnight (slicesOf t legs) sinceTs untilTs gran := by
  rw [optCalendarOf, optCalendarOf, computeOptRealizedCalendar, computeOptRealizedCalendar,
    ← optPairs_slicesOf hnd hattr h]
  refine congrArg _ (List.filterMap_congr fun p hp => ?_)
  obtain ⟨km, hkm, rfl⟩ := List.mem_map.1 hp
  obtain ⟨ho, hc, hoid, hcid, k, hpair⟩ := mem_of_mem_optMatches chicago hkm
  have hwhole := (contractPairs_forall_iff chicago (fun x => ∃ e ∈ legs,
    e.accountExecutionsId = x.accountExecutionsId ∧ WholeFor t e) _ k).2 (h.fills k) _ hpair
  have hdate : ∀ {l : Leg}, l.exec ∈ legs.map TradeExecution.toExecution →
      l.exec.execId = some l.eid → (∃ e ∈ legs,
        e.accountExecutionsId = l.exec.accountExecutionsId ∧ WholeFor t e) →
      legChicagoDate chicago (legs.map TradeExecution.toExecution) l.eid =
        legChicagoDate chicago ((slicesOf t legs).map TradeExecution.toExecution) l.eid := by
    rintro l - hexec ⟨e, he, heid, hw⟩
    obtain ⟨i, hi⟩ := Option.isSome_iff_exists.1 (hid e he)
    rw [Execution.execId, ← heid, hi, Option.some_or] at hexec
    exact legChicagoDate_slicesOf hnd hattr he hw (hi.trans hexec)
  simp only [attrDate, toOptPair, hdate ho hoid hwhole.1, hdate hc hcid hwhole.2]

/-- The option calendar under a trade filter is that of the trade's slices, whose figures are
weighted as in the other aggregates. -/
structure PairsSlices (chicago : ℚ → Option Date) (chicagoMidnight : Date → ℚ) (book : TradeBook)
    (sinceTs untilTs : Option ℚ) (gran : Granularity) (accountId : Option String)
    (strategyOpportunityId : Option ℤ) (t : ℤ) : Prop where
  weights : ∀ e ∈ tradeOptLegs chicago book sinceTs untilTs
      (tradeFilter accountId strategyOpportunityId t),
    ∀ s, sliceExecutionForInstanceOptView e t = some s →
      finiteOrZero s.commission = finiteOrZero e.commission *
          perfInstWeight (tradeFilter accountId strategyOpportunityId t) e ∧
        finiteOrZero s.realizedPnl = finiteOrZero e.realizedPnl *
          perfInstWeight (tradeFilter accountId strategyOpportunityId t) e
  calendar : ∀ rows, tradeCalendarBySecType chicago chicagoMidnight book sinceTs untilTs
      (tradeFilter accountId strategyOpportunityId t) gran = some rows →
    optRowsOf rows = optCalendarOf chicago chicagoMidnight
      (slicesOf t (tradeOptLegs chicago book sinceTs untilTs
        (tradeFilter accountId strategyOpportunityId t))) sinceTs untilTs gran

variable {chicagoMidnight}

theorem optRowsOf_tradeCalendarBySecType {book : TradeBook} {sinceTs untilTs : Option ℚ}
    {f : ReadFilter} {gran : Granularity} {rows : List CalendarRow}
    (h : tradeCalendarBySecType chicago chicagoMidnight book sinceTs untilTs f gran = some rows) :
    optRowsOf rows = optCalendarOf chicago chicagoMidnight
      (tradeOptLegs chicago book sinceTs untilTs f) sinceTs untilTs gran := by
  unfold tradeCalendarBySecType at h
  dsimp only at h
  split_ifs at h with hfail
  obtain rfl := Option.some.inj h
  exact optRowsOf_merged gran _ _

/-- The option calendar of a trade is that of its slices wherever what is paired is the trade's as
a whole. -/
theorem pairsSlices_of_pairedWhole (book : TradeBook) (sinceTs untilTs : Option ℚ)
    (gran : Granularity) (accountId : Option String) (strategyOpportunityId : Option ℤ) (t : ℤ)
    (h : PairedWhole chicago t (tradeOptLegs chicago book sinceTs untilTs
      (tradeFilter accountId strategyOpportunityId t))) :
    PairsSlices chicago chicagoMidnight book sinceTs untilTs gran accountId strategyOpportunityId
      t := by
  obtain ⟨hnd, hmem⟩ := tradeOptLegs_spec chicago book sinceTs untilTs
    (tradeFilter accountId strategyOpportunityId t)
  refine ⟨fun e _ s hs => finiteOrZero_commission_slice hs, fun rows hrows => ?_⟩
  rw [optRowsOf_tradeCalendarBySecType hrows]
  refine optCalendarOf_slicesOf chicagoMidnight hnd (fun e he => (hmem e he).1) (fun e he => ?_) h
    sinceTs untilTs gran
  obtain ⟨r, hsel, rfl⟩ := (hmem e he).2
  exact hsel.2.2 t rfl

end Law

/-! ### A fill shared by two trades -/

/-- A row of two contracts, split over the trades 1 and 2. -/
def sharedRow (id : ℤ) (side : String) (price : ℚ) (time : ℚ) : AttributedRow where
  toExecutionRow := { sampleRow id side price sep1 time with quantity := some (.fin 2) }
  contractKey := none
  taxes := none
  netCash := none
  tradeId := none
  tradeLabel := none
  strategyOpportunityId := none
  strategyOpportunityName := none
  fillSplits := [⟨1, 1, none, none⟩, ⟨2, 1, none, none⟩]

/-- Two contracts bought and sold on the first of September 2026, one for each of two trades. -/
def sharedFills : TradeBook where
  rows := [sharedRow 1 "BUY" 2 1788271200, sharedRow 2 "SELL" 5 1788271260]
  ids_nodup := by decide

/-- The trade that has one of the two contracts is shown the P&L of both. -/
theorem not_pairsSlices_sharedFills :
    (∃ rows, tradeCalendarBySecType sampleChicago sampleMidnight sharedFills (some 1788238800)
        (some 1788325199) (tradeFilter (some "U1") none 1) .day = some rows ∧
      (optRowsOf rows).map CalendarRow.netPnl = [598] ∧
      (optCalendarOf sampleChicago sampleMidnight (slicesOf 1 (tradeOptLegs sampleChicago
        sharedFills (some 1788238800) (some 1788325199) (tradeFilter (some "U1") none 1)))
        (some 1788238800) (some 1788325199) .day).map CalendarRow.netPnl = [299]) ∧
    ¬ PairsSlices sampleChicago sampleMidnight sharedFills (some 1788238800) (some 1788325199)
      .day (some "U1") none 1 := by
  have hslices : (optCalendarOf sampleChicago sampleMidnight (slicesOf 1 (tradeOptLegs
      sampleChicago sharedFills (some 1788238800) (some 1788325199)
      (tradeFilter (some "U1") none 1))) (some 1788238800) (some 1788325199) .day).map
        CalendarRow.netPnl = [299] := by decide +kernel
  have hrows : ∃ rows, tradeCalendarBySecType sampleChicago sampleMidnight sharedFills
      (some 1788238800) (some 1788325199) (tradeFilter (some "U1") none 1) .day = some rows ∧
        (optRowsOf rows).map CalendarRow.netPnl = [598] := by
    refine ⟨(tradeCalendarBySecType sampleChicago sampleMidnight sharedFills
      (some 1788238800) (some 1788325199) (tradeFilter (some "U1") none 1) .day).getD [], ?_, ?_⟩
    all_goals decide +kernel
  obtain ⟨rows, hsome, hpnl⟩ := hrows
  refine ⟨⟨rows, hsome, hpnl, hslices⟩, fun h => ?_⟩
  rw [h.calendar rows hsome, hslices] at hpnl
  revert hpnl
  decide

/-! ### A shared fill that is not paired -/

/-- A row of two contracts of trade 1 alone. -/
def ownRow (id : ℤ) (side : String) (price : ℚ) (time : ℚ) : AttributedRow :=
  { sharedRow id side price time with
    tradeId := some 1
    fillSplits := [] }

/-- Two contracts of trade 1 bought and sold, and two bought afterwards for two trades. -/
def sharedOpening : TradeBook where
  rows := [ownRow 1 "BUY" 2 1788271200, ownRow 2 "SELL" 5 1788271260,
    sharedRow 3 "BUY" 4 1788271320]
  ids_nodup := by decide

theorem pairedWhole_sharedOpening : PairedWhole sampleChicago 1
    (sharedOpening.rows.map AttributedRow.toTradeExecution) := by
  let key : GroupKey := groupKey (ownRow 1 "BUY" 2 1788271200).toTradeExecution.toExecution
  -- all three fills are of one group, and the first two are its only pair
  have hwhole : ∀ executions : List Execution, (∀ e ∈ executions, groupKey e = key) →
      (∀ ab ∈ (groupMatches sampleChicago (contractExecs executions key)).map Match.buyFirst,
        ab.1.exec.accountExecutionsId = some 1 ∧ ab.2.exec.accountExecutionsId = some 2) →
      ∀ k, ∀ ab ∈ laidOut sampleChicago executions k,
        WholeLeg 1 (sharedOpening.rows.map AttributedRow.toTradeExecution) ab.1 ∧
          WholeLeg 1 (sharedOpening.rows.map AttributedRow.toTradeExecution) ab.2 := by
    intro executions hkeys hpairs k ab hab
    by_cases hk : k = key
    · rw [hk, laidOut_eq] at hab
      obtain ⟨ha, hb⟩ := hpairs ab hab
      exact ⟨⟨(ownRow 1 "BUY" 2 1788271200).toTradeExecution, by simp [sharedOpening], ha.symm,
          Or.inl rfl⟩,
        ⟨(ownRow 2 "SELL" 5 1788271260).toTradeExecution, by simp [sharedOpening], hb.symm,
          Or.inl rfl⟩⟩
    · rw [laidOut_of_ne sampleChicago hkeys hk] at hab
      exact absurd hab List.not_mem_nil
  have hsliced : ∀ e ∈ sharedOpening.rows.map AttributedRow.toTradeExecution,
      (sliceExecutionForInstanceOptView e 1).isSome := by decide +kernel
  exact ⟨hwhole _ (by decide +kernel) (by decide +kernel),
    hwhole _ (by decide +kernel) (by decide +kernel), fun _ _ e he _ => hsliced e he⟩

/-- The fill that stays open is read as it is, and the calendar is that of the slices all the
same. -/
theorem pairsSlices_of_pairedWhole_sharedOpening :
    PairsSlices sampleChicago sampleMidnight sharedOpening (some 1788238800) (some 1788325199)
      .day (some "U1") none 1 := by
  apply pairsSlices_of_pairedWhole
  have hlegs : tradeOptLegs sampleChicago sharedOpening (some 1788238800) (some 1788325199)
      (tradeFilter (some "U1") none 1) =
        sharedOpening.rows.map AttributedRow.toTradeExecution := by decide +kernel
  rw [hlegs]
  exact pairedWhole_sharedOpening

end Portfolio
