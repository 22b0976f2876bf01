import BifrostTrade.Lib.LotAlignment
import BifrostTrade.Portfolio.OptPairs

/-!
# The option pairing is a queue

The loop of `_compute_opt_pair_map_and_pairs` pairs the legs of each group as the one-pass queue
does, never uses a leg for more than its quantity and leaves one side open at most.  The group key
has no option right, so the pairs join one contract exactly when the buys and the sells of a group
that lie over each other by quantity are of one right (`pairsOneContract_iff`).
-/

namespace Portfolio

open Py FifoMatching

variable (chicago : ℚ → Option Date)

/-! ## Work lists -/

theorem qtyEps_nonneg : 0 ≤ qtyEps := by decide +kernel

theorem workEntry_eq_some {pos : ℕ} {x : Execution} {l : Lot Leg ℚ} (h : workEntry pos x = some l) :
    l.leg.pos = pos ∧ l.leg.exec = x ∧ 0 < l.remQty := by
  simp only [workEntry, Option.bind_eq_bind, Option.bind_eq_some_iff] at h
  obtain ⟨side, -, q, -, p, -, eid, -, h⟩ := h
  split_ifs at h with hq
  cases h
  exact ⟨rfl, rfl, not_le.1 hq⟩

/-- The quantity of a work entry is the size of its execution's. -/
theorem workEntry_remQty {pos : ℕ} {x : Execution} {l : Lot Leg ℚ}
    (h : workEntry pos x = some l) :
    ∃ q, l.leg.exec.quantity = some (.fin q) ∧ l.remQty = |q| := by
  simp only [workEntry, Option.bind_eq_bind, Option.bind_eq_some_iff] at h
  obtain ⟨side, -, q, hq, p, -, eid, -, h⟩ := h
  split_ifs at h with hpos
  cases h
  cases hx : x.quantity with
  | none =>
    rw [hx] at hq
    cases hq
    exact absurd (by simp) hpos
  | some d =>
    rw [hx] at hq
    cases d with
    | fin r =>
      cases hq
      exact ⟨r, rfl, rfl⟩
    | _ => cases hq

theorem mem_groupWork {group : List Execution} {l : Lot Leg ℚ} (h : l ∈ groupWork chicago group) :
    l.leg.exec ∈ group ∧ 0 < l.remQty := by
  obtain ⟨⟨x, i⟩, hx, hl⟩ := List.mem_filterMap.1 h
  obtain ⟨-, hexec, hpos⟩ := workEntry_eq_some hl
  have hmem : x ∈ sortedBy (fifoSortKey chicago) group := by
    have := List.mem_map_of_mem (f := Prod.fst) hx
    rwa [List.zipIdx_map_fst] at this
  exact ⟨hexec ▸ mem_sortedBy.1 hmem, hpos⟩

/-- The entries of a work list are told apart by their places. -/
theorem groupWork_leg_nodup (group : List Execution) :
    ((groupWork chicago group).map Lot.leg).Nodup := by
  have hpos : ((groupWork chicago group).map fun l => l.leg.pos).Sublist
      ((sortedBy (fifoSortKey chicago) group).zipIdx.map Prod.snd) := by
    rw [groupWork]
    generalize (sortedBy (fifoSortKey chicago) group).zipIdx = xs
    induction xs with
    | nil => exact .slnil
    | cons x xs ih =>
      cases hx : workEntry x.2 x.1 with
      | none =>
        rw [List.filterMap_cons_none (f := fun x : Execution × ℕ => workEntry x.2 x.1) hx]
        exact ih.cons _
      | some l =>
        rw [List.filterMap_cons_some (f := fun x : Execution × ℕ => workEntry x.2 x.1) hx,
          List.map_cons, List.map_cons, (workEntry_eq_some hx).1]
        exact ih.cons_cons _
  have hnd : ((sortedBy (fifoSortKey chicago) group).zipIdx.map Prod.snd).Nodup := by
    rw [List.zipIdx_map_snd]
    exact List.nodup_range' ..
  refine List.Nodup.of_map Leg.pos ?_
  rw [List.map_map]
  exact hnd.sublist hpos

/-! ## The loop is a queue -/

theorem groupMatches_eq (group : List Execution) :
    groupMatches chicago group = (queueFifo qtyEps [] (groupWork chicago group)).1 := by
  obtain ⟨final, hloop, -⟩ := restartLoop_eq_queueFifo qtyEps_nonneg (groupWork chicago group)
    (Nat.lt_succ_self _)
  rw [groupMatches, hloop]

theorem groupMatches_legs {group : List Execution} {m : Match Leg ℚ}
    (hm : m ∈ groupMatches chicago group) :
    m.opening.exec ∈ group ∧ m.closing.exec ∈ group := by
  rw [groupMatches_eq] at hm
  obtain ⟨ho, hc⟩ := queueFifo_legs _ m hm
  obtain ⟨l, hl, hlo⟩ := List.mem_map.1 ho
  obtain ⟨l', hl', hlc⟩ := List.mem_map.1 hc
  exact ⟨hlo ▸ (mem_groupWork chicago hl).1, hlc ▸ (mem_groupWork chicago hl').1⟩

/-- In one group: the loop ends and returns the pairs of the one-pass queue; what it leaves above
the tolerance is on one side; no leg is used for more than its quantity, and a leg used in whole
gives its whole commission. -/
def GroupPairedAsQueue (work : List (Lot Leg ℚ)) : Prop :=
  ∃ final, restartLoop qtyEps (work.length + 1) work =
      some ((queueFifo qtyEps [] work).1, final) ∧
    (∃ s, OnSide s (live qtyEps final)) ∧
    ∀ l ∈ work, matchedQty l.leg (queueFifo qtyEps [] work).1 ≤ l.remQty ∧
      (matchedQty l.leg (queueFifo qtyEps [] work).1 = l.remQty →
        matchedComm l.leg (queueFifo qtyEps [] work).1 = l.remComm)

theorem groupPairedAsQueue {work : List (Lot Leg ℚ)} (hnd : (work.map Lot.leg).Nodup)
    (hpos : ∀ l ∈ work, 0 < l.remQty) : GroupPairedAsQueue work := by
  obtain ⟨final, hloop, hfinal, hset⟩ := restartLoop_eq_queueFifo qtyEps_nonneg work
    (Nat.lt_succ_self _)
  refine ⟨final, hloop, ?_, fun l hl => ?_⟩
  · rw [hfinal]
    exact (IsOpen.nil.queueFifo work).oneSided
  · obtain ⟨f, hf, hq, hc⟩ := hset.matched_eq hnd hl
    have hl0 := hpos l hl
    rw [hq, hc]
    refine ⟨?_, fun h => ?_⟩
    · have := mul_nonneg hf hl0.le
      linarith
    · have hf0 : f = 0 := by
        have : f * l.remQty = 0 := by linarith
        exact (mul_eq_zero.1 this).resolve_right hl0.ne'
      rw [hf0, sub_zero, one_mul]

/-- Every group is paired as by a queue, and the result lists the pairs of the groups in turn. -/
theorem optPairs_eq_queueFifo (executions : List Execution) :
    (∀ g ∈ optGroups executions, GroupPairedAsQueue (groupWork chicago g.2)) ∧
      (computeOptPairMapAndPairs chicago executions).2 =
        (optGroups executions).flatMap fun g =>
          (queueFifo qtyEps [] (groupWork chicago g.2)).1.map (toOptPair g.1) := by
  constructor
  · intro g _
    exact groupPairedAsQueue (groupWork_leg_nodup chicago g.2)
      fun l hl => (mem_groupWork chicago hl).2
  · simp only [computeOptPairMapAndPairs, optMatches, groupMatches_eq, List.map_flatMap,
      List.map_map]
    rfl

/-! ## One contract a pair -/

/-- Two executions of one account and one option contract. -/
structure SameContract (a b : Execution) : Prop where
  account : strip (textOrEmpty a.accountId) = strip (textOrEmpty b.accountId)
  underlying : strip (textOrEmpty a.symbol) = strip (textOrEmpty b.symbol)
  expiry : normExpiry a.expiry = normExpiry b.expiry
  strike : normStrike a.strike = normStrike b.strike
  right : normOptionRight a.optionRight = normOptionRight b.optionRight

/-- Both legs of every pair are of one contract. -/
def PairsOneContract (executions : List Execution) : Prop :=
  ∀ km ∈ optMatches chicago executions, SameContract km.2.opening.exec km.2.closing.exec

theorem sameContract_iff {a b : Execution} (h : groupKey a = groupKey b) :
    SameContract a b ↔ normOptionRight a.optionRight = normOptionRight b.optionRight := by
  simp only [groupKey, GroupKey.mk.injEq] at h
  exact ⟨fun hc => hc.right, fun hr => ⟨h.2.2.2, h.1, h.2.1, h.2.2.1, hr⟩⟩

theorem groupKey_of_mem_optGroups {executions : List Execution} {g : GroupKey × List Execution}
    (hg : g ∈ optGroups executions) {e : Execution} (he : e ∈ g.2) : groupKey e = g.1 := by
  rw [(mem_groupBy.1 hg).2, List.mem_filter] at he
  exact of_decide_eq_true he.2

/-- Two legs of one option right. -/
def SameRight (a b : Leg) : Prop :=
  normOptionRight a.exec.optionRight = normOptionRight b.exec.optionRight

/-- Buys and sells that lie over each other, laid out by quantity in sort order, are of one
right. -/
def SidesOneRight (work : List (Lot Leg ℚ)) : Prop :=
  ∀ ab ∈ sideBySide qtyEps (row qtyEps .buy work) (row qtyEps .sell work), SameRight ab.1 ab.2

/-- A buy and a sell whose stretches of the summed quantities overlap are of one right. -/
def OverlapsOneRight (work : List (Lot Leg ℚ)) : Prop :=
  ∀ a b, Overlap (row qtyEps .buy work) (row qtyEps .sell work) a b → SameRight a b

/-- Every option fill is for a whole number of steps. -/
def QuantitiesOnStep (step : ℚ) (executions : List Execution) : Prop :=
  ∀ e ∈ executions, e.isOpt → ∀ x, e.quantity = some (.fin x) → ∃ k : ℤ, x = k * step

/-- Option fills that share symbol, expiry, strike and account share the right. -/
def GroupsOneRight (executions : List Execution) : Prop :=
  ∀ a ∈ executions, ∀ b ∈ executions, a.isOpt → b.isOpt → groupKey a = groupKey b →
    normOptionRight a.optionRight = normOptionRight b.optionRight

theorem isOpt_of_mem_optGroups {executions : List Execution} {g : GroupKey × List Execution}
    (hg : g ∈ optGroups executions) {e : Execution} (he : e ∈ g.2) :
    e ∈ executions ∧ e.isOpt := by
  rw [(mem_groupBy.1 hg).2, List.mem_filter, List.mem_filter] at he
  exact ⟨he.1.1, (of_decide_eq_true he.1.2).1⟩

/-- The pairs of each group decide. -/
theorem pairsOneContract_iff_groups (executions : List Execution) :
    PairsOneContract chicago executions ↔ ∀ g ∈ optGroups executions,
      ∀ m ∈ groupMatches chicago g.2, SameRight m.opening m.closing := by
  simp only [PairsOneContract, optMatches, List.mem_flatMap, List.mem_map]
  constructor
  · intro h g hg m hm
    exact (h (g.1, m) ⟨g, hg, m, hm, rfl⟩).right
  · rintro h _ ⟨g, hg, m, hm, rfl⟩
    obtain ⟨ho, hc⟩ := groupMatches_legs chicago hm
    refine (sameContract_iff ?_).2 (h g hg m hm)
    rw [groupKey_of_mem_optGroups hg ho, groupKey_of_mem_optGroups hg hc]

theorem sidesOneRight_iff (group : List Execution) :
    (∀ m ∈ groupMatches chicago group, SameRight m.opening m.closing) ↔
      SidesOneRight (groupWork chicago group) := by
  rw [groupMatches_eq]
  exact queueFifo_forall_iff (R := SameRight) qtyEps_nonneg (fun _ _ => eq_comm) _

/-- The rows of a group hold whole numbers of steps where its fills do. -/
theorem onStep_row {step : ℚ} {executions group : List Execution}
    (h : QuantitiesOnStep step executions)
    (hgroup : ∀ e ∈ group, e ∈ executions ∧ e.isOpt) (s : Side) :
    OnStep step (row qtyEps s (groupWork chicago group)) := by
  intro x hx
  obtain ⟨l, hl, rfl⟩ := List.mem_map.1 hx
  have hl' : l ∈ groupWork chicago group := List.mem_of_mem_filter (List.mem_of_mem_filter hl)
  obtain ⟨hmem, hpos⟩ := mem_groupWork chicago hl'
  obtain ⟨hin, hopt⟩ := hgroup l.leg.exec hmem
  obtain ⟨y, -, hy⟩ := List.mem_filterMap.1 hl'
  obtain ⟨q, hq, hrem⟩ := workEntry_remQty hy
  obtain ⟨k, hk⟩ := h l.leg.exec hin hopt q hq
  refine ⟨hpos, ?_⟩
  rcases abs_choice q with habs | habs
  · exact ⟨k, by rw [hrem, habs, hk]⟩
  · refine ⟨-k, ?_⟩
    rw [hrem, habs, hk]
    push_cast
    ring

instance (a b : Execution) : Decidable (SameContract a b) :=
  decidable_of_iff (_ ∧ _ ∧ _ ∧ _ ∧ _)
    ⟨fun ⟨ha, hu, he, hs, hr⟩ => ⟨ha, hu, he, hs, hr⟩,
      fun ⟨ha, hu, he, hs, hr⟩ => ⟨ha, hu, he, hs, hr⟩⟩

instance (executions : List Execution) : Decidable (PairsOneContract chicago executions) :=
  inferInstanceAs (Decidable (∀ km ∈ _, _))

/-- The first of September 2026. -/
def sep1 : Date := (Date.ofYmd 2026 9 1).getD Date.epoch

/-- A fill of one contract on the first of September. -/
def sepFill (id : ℤ) (side right : String) (price time : ℚ) : Execution where
  accountExecutionsId := some id
  accountId := some "U1"
  symbol := some "NVDA"
  secType := some "OPT"
  side := some side
  quantity := some (.fin 1)
  price := some (.fin price)
  commission := some (.fin 1)
  expiry := some "20270115"
  strike := some (.fin 100)
  optionRight := some right
  tradeDate := some (.date sep1)
  time := some time

end Portfolio
