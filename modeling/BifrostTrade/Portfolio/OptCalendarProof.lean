import BifrostTrade.Portfolio.OptCalendar
import BifrostTrade.Portfolio.OptPairsProof

/-!
# The option calendar of a range

The option rows of a range are the per-day sums of the pairs of the whole history that close in
the range, as long as the look-back read cuts through no pair that matters
(`optCalendar_restrictsHistory`).
-/

namespace Portfolio

open Py FifoMatching

/-! ## Pairs without places -/

/-- A leg without its place in the group. -/
def Leg.unplaced (l : Leg) : Leg := { l with pos := 0 }

theorem workEntry_unplaced (pos : ℕ) (x : Execution) :
    (workEntry pos x).map (Lot.map Leg.unplaced) = workEntry 0 x := by
  simp only [workEntry, Option.bind_eq_bind, Option.map_bind, Function.comp_def,
    apply_ite (Option.map _), Option.map_none, Option.map_some]
  rfl

/-- The executions that a work list in this order refers to. -/
theorem exec_mem_of_workEntry {sorted : List Execution} {l : Lot Leg ℚ}
    (hl : l ∈ sorted.filterMap (workEntry 0)) : l.leg.exec ∈ sorted := by
  obtain ⟨x, hx, hxl⟩ := List.mem_filterMap.1 hl
  exact (workEntry_eq_some hxl).2.1 ▸ hx

/-- The pairs of executions in this order. -/
def orderedMatches (sorted : List Execution) : List (Match Leg ℚ) :=
  (queueFifo qtyEps [] (sorted.filterMap (workEntry 0))).1

theorem groupMatches_unplaced (chicago : ℚ → Option Date) (group : List Execution) :
    (groupMatches chicago group).map (Match.map Leg.unplaced) =
      orderedMatches (sortedBy (fifoSortKey chicago) group) := by
  have hwork : (groupWork chicago group).map (Lot.map Leg.unplaced) =
      (sortedBy (fifoSortKey chicago) group).filterMap (workEntry 0) := by
    have hfst : (fun x : Execution × ℕ => workEntry 0 x.1) = workEntry 0 ∘ Prod.fst := rfl
    rw [groupWork, List.map_filterMap]
    simp only [workEntry_unplaced]
    rw [hfst, ← List.filterMap_map, List.zipIdx_map_fst]
  have hmap := queueFifo_map qtyEps Leg.unplaced [] (groupWork chicago group)
  rw [List.map_nil, hwork] at hmap
  rw [groupMatches_eq, orderedMatches, hmap]

theorem orderedMatches_rel {R : Execution → Execution → Prop} {sorted : List Execution}
    (h : sorted.Pairwise R) :
    ∀ m ∈ orderedMatches sorted, R m.opening.exec m.closing.exec := by
  have hexec : ∀ x l, workEntry 0 x = some l → l.leg.exec = x := fun x l hl =>
    (workEntry_eq_some hl).2.1
  refine queueFifo_rel (R := fun a b : Leg => R a.exec b.exec) ?_ (by simp)
  rw [List.pairwise_map, List.pairwise_filterMap]
  refine h.imp fun {a b} hab l hl l' hl' => ?_
  rw [hexec a l hl, hexec b l' hl']
  exact hab

theorem orderedMatches_mem {sorted : List Execution} {m : Match Leg ℚ}
    (hm : m ∈ orderedMatches sorted) :
    m.opening.exec ∈ sorted ∧ m.closing.exec ∈ sorted :=
  orderedMatches_rel (R := fun a b => a ∈ sorted ∧ b ∈ sorted)
    (List.pairwise_of_forall_mem_list fun _ ha _ hb => ⟨ha, hb⟩) m hm

/-- The pairs of a first part of the executions come first, those with a later closing leg after
them. -/
theorem orderedMatches_append (xs ys : List Execution) :
    ∃ later, orderedMatches (xs ++ ys) = orderedMatches xs ++ later ∧
      ∀ m ∈ later, m.closing.exec ∈ ys := by
  refine ⟨_, by rw [orderedMatches, List.filterMap_append, queueFifo_append]; rfl, ?_⟩
  refine queueFifo_rel (R := fun _ b : Leg => b.exec ∈ ys) ?_ fun _ _ w hw =>
    exec_mem_of_workEntry hw
  rw [List.pairwise_map]
  exact List.pairwise_of_forall_mem_list fun _ _ w hw => exec_mem_of_workEntry hw

theorem filterMap_workEntry_filter (p : Execution → Bool) (sorted : List Execution) :
    (sorted.filter p).filterMap (workEntry 0) =
      (sorted.filterMap (workEntry 0)).filter fun l => p l.leg.exec := by
  induction sorted with
  | nil => rfl
  | cons x sorted ih =>
    have hexec : ∀ l, workEntry 0 x = some l → l.leg.exec = x := fun l hl =>
      (workEntry_eq_some hl).2.1
    by_cases hp : p x = true
    · rw [List.filter_cons_of_pos hp]
      cases hx : workEntry 0 x with
      | none => rw [List.filterMap_cons_none hx, List.filterMap_cons_none hx, ih]
      | some l =>
        rw [List.filterMap_cons_some hx, List.filterMap_cons_some hx,
          List.filter_cons_of_pos (by rwa [hexec l hx]), ih]
    · rw [List.filter_cons_of_neg hp]
      cases hx : workEntry 0 x with
      | none => rw [List.filterMap_cons_none hx, ih]
      | some l =>
        rw [List.filterMap_cons_some hx, List.filter_cons_of_neg (by rwa [hexec l hx]), ih]

/-- When no pair joins an execution in `p` with one outside, the executions in `p` pair alone as
they do among the others. -/
theorem orderedMatches_filter (p : Execution → Bool) {sorted : List Execution}
    (h : ∀ m ∈ orderedMatches sorted, p m.opening.exec = p m.closing.exec) :
    orderedMatches (sorted.filter p) =
      (orderedMatches sorted).filter fun m => p m.closing.exec := by
  have hopen : IsOpen qtyEps ([] : List (Lot Leg ℚ)) := .nil
  have hq := queueFifo_filter (fun l : Leg => p l.exec) hopen h
  rw [orderedMatches, filterMap_workEntry_filter]
  exact congrArg Prod.fst hq

/-! ## Pairs by contract -/

section History

variable (chicago : ℚ → Option Date)

/-- The executions of one group. -/
def contractExecs (executions : List Execution) (k : GroupKey) : List Execution :=
  (executions.filter fun e => e.isOpt ∧ e.execId.isSome ∧ (sideOf e).isSome).filter
    fun e => groupKey e = k

theorem contractExecs_subset (executions : List Execution) (k : GroupKey) :
    contractExecs executions k ⊆ executions := fun _ he =>
  List.mem_of_mem_filter (List.mem_of_mem_filter he)

/-- The pairs of one group. -/
def contractPairs (executions : List Execution) (k : GroupKey) : List (Match Leg ℚ) :=
  orderedMatches (sortedBy (fifoSortKey chicago) (contractExecs executions k))

/-- What is read off the pairs, by contract in any order of the contracts. -/
theorem optMatches_filterMap_perm {β : Type*} (F : GroupKey → Match Leg ℚ → Option β)
    (hF : ∀ k m, F k (m.map Leg.unplaced) = F k m) (executions : List Execution)
    {ks : List GroupKey} (hnd : ks.Nodup) (hks : executions.map groupKey ⊆ ks) :
    ((optMatches chicago executions).filterMap fun km => F km.1 km.2).Perm
      (ks.flatMap fun k => (contractPairs chicago executions k).filterMap (F k)) := by
  have hgroup : ∀ g : GroupKey × List Execution,
      ((groupMatches chicago g.2).map fun m => (g.1, m)).filterMap (fun km => F km.1 km.2) =
        (orderedMatches (sortedBy (fifoSortKey chicago) g.2)).filterMap (F g.1) := by
    intro g
    rw [← groupMatches_unplaced, List.filterMap_map, List.filterMap_map]
    exact congrArg (List.filterMap · _) (funext fun m => (hF g.1 m).symm)
  rw [optMatches, List.filterMap_flatMap]
  simp only [hgroup]
  refine groupBy_flatMap_perm groupKey _ (fun k as =>
    (orderedMatches (sortedBy (fifoSortKey chicago) as)).filterMap (F k)) (fun k => rfl) hnd ?_
  intro k hk
  obtain ⟨e, he, rfl⟩ := List.mem_map.1 hk
  exact hks (List.mem_map_of_mem (List.mem_of_mem_filter he))

theorem exists_optMatch_of_mem_contractPairs {executions : List Execution} {k : GroupKey}
    {m : Match Leg ℚ} (hm : m ∈ contractPairs chicago executions k) :
    ∃ km ∈ optMatches chicago executions, km.2.opening.exec = m.opening.exec ∧
      km.2.closing.exec = m.closing.exec := by
  have hg : (k, contractExecs executions k) ∈ optGroups executions := by
    refine mem_groupBy.2 ⟨?_, rfl⟩
    obtain ⟨he, -⟩ := orderedMatches_mem hm
    have he := List.mem_filter.1 (mem_sortedBy.1 he)
    exact of_decide_eq_true he.2 ▸ List.mem_map_of_mem he.1
  rw [contractPairs, ← groupMatches_unplaced] at hm
  obtain ⟨m', hm', rfl⟩ := List.mem_map.1 hm
  exact ⟨(k, m'), List.mem_flatMap.2 ⟨_, hg, List.mem_map_of_mem hm'⟩, rfl, rfl⟩

/-! ## Histories -/

/-- Executions with ids of their own, each with a date that the sort key starts with. -/
structure IsHistory (executions : List Execution) : Prop where
  ids_nodup : (executions.map Execution.accountExecutionsId).Nodup
  id_isSome : ∀ e ∈ executions, e.accountExecutionsId.isSome
  dated : ∀ e ∈ executions, ∃ d, legDate chicago e = some d ∧
    executionDateStrForFifo chicago e = d.isoformat

/-- The date of an execution that has one. -/
def dateOf (e : Execution) : Date := (legDate chicago e).getD Date.epoch

variable {chicago}

theorem IsHistory.legDate_eq {executions : List Execution} (h : IsHistory chicago executions)
    {e : Execution} (he : e ∈ executions) : legDate chicago e = some (dateOf chicago e) := by
  obtain ⟨d, hd, -⟩ := h.dated e he
  rw [dateOf, hd, Option.getD_some]

theorem IsHistory.dateStr_eq {executions : List Execution} (h : IsHistory chicago executions)
    {e : Execution} (he : e ∈ executions) :
    executionDateStrForFifo chicago e = (dateOf chicago e).isoformat := by
  obtain ⟨d, hd, hs⟩ := h.dated e he
  rw [dateOf, hd, Option.getD_some, hs]

theorem IsHistory.eq_of_id_eq {executions : List Execution} (h : IsHistory chicago executions)
    {a b : Execution} (ha : a ∈ executions) (hb : b ∈ executions)
    (hab : a.accountExecutionsId = b.accountExecutionsId) : a = b :=
  List.inj_on_of_nodup_map h.ids_nodup ha hb hab

theorem IsHistory.execId_eq {executions : List Execution} (h : IsHistory chicago executions)
    {e : Execution} (he : e ∈ executions) : e.execId = e.accountExecutionsId := by
  obtain ⟨i, hi⟩ := Option.isSome_iff_exists.1 (h.id_isSome e he)
  rw [Execution.execId, hi, Option.some_or]

/-- Sort keys tell the executions of a history apart. -/
theorem IsHistory.fifoSortKey_injOn {executions : List Execution}
    (h : IsHistory chicago executions) :
    ∀ a ∈ executions, ∀ b ∈ executions,
      fifoSortKey chicago a = fifoSortKey chicago b → a = b := by
  intro a ha b hb hab
  refine h.eq_of_id_eq ha hb ?_
  simp only [fifoSortKey, EmbeddingLike.apply_eq_iff_eq, Prod.mk.injEq] at hab
  obtain ⟨i, hi⟩ := Option.isSome_iff_exists.1 (h.id_isSome a ha)
  obtain ⟨j, hj⟩ := Option.isSome_iff_exists.1 (h.id_isSome b hb)
  have hij := hab.2.2
  rw [h.execId_eq ha, h.execId_eq hb, hi, hj, Option.getD_some, Option.getD_some] at hij
  rw [hi, hj, hij]

/-- In sort order the dates ascend. -/
theorem IsHistory.sorted_dates {executions : List Execution} (h : IsHistory chicago executions)
    {group : List Execution} (hsub : group ⊆ executions) :
    (sortedBy (fifoSortKey chicago) group).Pairwise
      fun a b => dateOf chicago a ≤ dateOf chicago b := by
  refine (sortedBy_pairwise (fifoSortKey chicago) group).imp_of_mem fun {a b} ha hb hab => ?_
  have ha := hsub (mem_sortedBy.1 ha)
  have hb := hsub (mem_sortedBy.1 hb)
  have hle : executionDateStrForFifo chicago a ≤ executionDateStrForFifo chicago b := by
    rcases Prod.Lex.toLex_le_toLex.1 hab with hlt | ⟨heq, -⟩
    exacts [hlt.le, heq.le]
  rw [h.dateStr_eq ha, h.dateStr_eq hb] at hle
  exact Date.isoformat_strictMono.le_iff_le.1 hle

/-! ## Pairs with their dates -/

variable (chicago)

/-- The pairs of a history, each with the date of its closing leg. -/
def datedPairs (executions : List Execution) : List (Date × OptPair) :=
  (optMatches chicago executions).map fun km =>
    (dateOf chicago km.2.closing.exec, toOptPair km.1 km.2)

theorem mem_of_mem_optMatches {executions : List Execution} {km : GroupKey × Match Leg ℚ}
    (h : km ∈ optMatches chicago executions) :
    km.2.opening.exec ∈ executions ∧ km.2.closing.exec ∈ executions ∧
      km.2.opening.exec.execId = some km.2.opening.eid ∧
      km.2.closing.exec.execId = some km.2.closing.eid ∧
      ∃ k, km.2.map Leg.unplaced ∈ contractPairs chicago executions k := by
  obtain ⟨g, hg, hkm⟩ := List.mem_flatMap.1 h
  obtain ⟨m, hm, rfl⟩ := List.mem_map.1 hkm
  have hgroup : ∀ e ∈ g.2, e ∈ executions := by
    intro e he
    rw [(mem_groupBy.1 hg).2] at he
    exact List.mem_of_mem_filter (List.mem_of_mem_filter he)
  have heid : ∀ l ∈ (groupWork chicago g.2).map Lot.leg, l.exec.execId = some l.eid := by
    intro l hl
    obtain ⟨x, hx, rfl⟩ := List.mem_map.1 hl
    obtain ⟨⟨y, i⟩, -, hy⟩ := List.mem_filterMap.1 hx
    simp only [workEntry, Option.bind_eq_bind, Option.bind_eq_some_iff] at hy
    obtain ⟨side, -, q, -, p, -, eid, heid, hentry⟩ := hy
    split_ifs at hentry
    cases hentry
    exact heid
  obtain ⟨ho, hc⟩ := groupMatches_legs chicago hm
  have hlegs := queueFifo_legs _ m (groupMatches_eq chicago g.2 ▸ hm)
  refine ⟨hgroup _ ho, hgroup _ hc, heid _ hlegs.1, heid _ hlegs.2, g.1, ?_⟩
  have hpairs : contractPairs chicago executions g.1 =
      (groupMatches chicago g.2).map (Match.map Leg.unplaced) := by
    rw [groupMatches_unplaced, contractPairs, contractExecs, ← (mem_groupBy.1 hg).2]
  rw [hpairs]
  exact List.mem_map_of_mem hm

variable {chicago}

theorem IsHistory.closing_later {executions : List Execution} (h : IsHistory chicago executions)
    {km : GroupKey × Match Leg ℚ} (hkm : km ∈ optMatches chicago executions) :
    dateOf chicago km.2.opening.exec ≤ dateOf chicago km.2.closing.exec := by
  obtain ⟨-, -, -, -, k, hk⟩ := mem_of_mem_optMatches chicago hkm
  exact orderedMatches_rel (h.sorted_dates (contractExecs_subset executions k))
    (km.2.map Leg.unplaced) hk

/-- The date of a leg is that of the execution with its id. -/
theorem legChicagoDate_of_mem {executions : List Execution}
    (hnd : (executions.map Execution.accountExecutionsId).Nodup) {e : Execution}
    (he : e ∈ executions) {eid : ℤ} (heid : e.accountExecutionsId = some eid) :
    legChicagoDate chicago executions eid = legDate chicago e := by
  have hfind : (executions.reverse.find? fun x => x.accountExecutionsId = some eid) = some e := by
    cases hf : executions.reverse.find? fun x => x.accountExecutionsId = some eid with
    | none =>
      have := List.find?_eq_none.1 hf e (List.mem_reverse.2 he)
      simp [heid] at this
    | some x =>
      have hx : x ∈ executions := List.mem_reverse.1 (List.mem_of_find?_eq_some hf)
      have hid : x.accountExecutionsId = some eid := by simpa using List.find?_some hf
      rw [List.inj_on_of_nodup_map hnd hx he (hid.trans heid.symm)]
  rw [legChicagoDate, hfind, Option.bind_some]

theorem IsHistory.legChicagoDate_eq {executions : List Execution} (h : IsHistory chicago executions)
    {e : Execution} (he : e ∈ executions) {eid : ℤ} (heid : e.execId = some eid) :
    legChicagoDate chicago executions eid = some (dateOf chicago e) := by
  rw [h.execId_eq he] at heid
  rw [legChicagoDate_of_mem h.ids_nodup he heid, h.legDate_eq he]

/-- A pair is attributed to the date of its closing leg. -/
theorem IsHistory.attrDate_eq {executions : List Execution} (h : IsHistory chicago executions)
    {km : GroupKey × Match Leg ℚ} (hkm : km ∈ optMatches chicago executions) :
    attrDate chicago executions (toOptPair km.1 km.2) =
      some (dateOf chicago km.2.closing.exec) := by
  obtain ⟨ho, hc, hoid, hcid, -⟩ := mem_of_mem_optMatches chicago hkm
  have hod := h.legChicagoDate_eq ho hoid
  have hcd := h.legChicagoDate_eq hc hcid
  simp only [attrDate, toOptPair, hod, hcd, max_eq_right (h.closing_later hkm)]

theorem IsHistory.computeOptRealizedCalendar_eq {executions : List Execution}
    (h : IsHistory chicago executions) (chicagoMidnight : Date → ℚ) (gran : Granularity)
    (since until_ : Option Date) :
    computeOptRealizedCalendar chicago chicagoMidnight executions gran since until_ =
      optRows chicagoMidnight gran
        ((datedPairs chicago executions).filter fun x => InRange since until_ x.1) := by
  rw [computeOptRealizedCalendar, computeOptPairMapAndPairs, datedPairs, List.filterMap_map,
    List.filter_map, ← List.filterMap_eq_filter, List.map_filterMap]
  refine congrArg _ (List.filterMap_congr fun km hkm => ?_)
  simp only [Function.comp, h.attrDate_eq hkm, Option.bind_some, Option.guard]
  by_cases hr : InRange since until_ (dateOf chicago km.2.closing.exec) <;> simp [hr]

/-! ## Cutting a history -/

/-- What is read is enough for the pairs of a range: every pair that closes in the range is made
of executions that are read, and none that closes up to its end joins one that is read with one
that is not. -/
def ReadSuffices (chicago : ℚ → Option Date) (read history : List Execution) (since until_ : Date) :
    Prop :=
  ∀ km ∈ optMatches chicago history, dateOf chicago km.2.closing.exec ≤ until_ →
    (km.2.opening.exec ∈ read ↔ km.2.closing.exec ∈ read) ∧
      (since ≤ dateOf chicago km.2.closing.exec → km.2.closing.exec ∈ read)

/-- The executions of a group up to a date, in sort order. -/
def earlyExecs (chicago : ℚ → Option Date) (executions : List Execution) (until_ : Date)
    (k : GroupKey) : List Execution :=
  (sortedBy (fifoSortKey chicago) (contractExecs executions k)).filter
    fun e => dateOf chicago e ≤ until_

/-- The pairs of a group start with those of the executions up to a date. -/
theorem IsHistory.contractPairs_early {executions : List Execution}
    (h : IsHistory chicago executions) (until_ : Date) (k : GroupKey) :
    ∃ later, contractPairs chicago executions k =
        orderedMatches (earlyExecs chicago executions until_ k) ++ later ∧
      ∀ m ∈ later, ¬ dateOf chicago m.closing.exec ≤ until_ := by
  let early : Execution → Bool := fun e => dateOf chicago e ≤ until_
  let sorted := sortedBy (fifoSortKey chicago) (contractExecs executions k)
  have hsplit : sorted.filter early ++ sorted.filter (fun e => !early e) = sorted :=
    filter_append_filter_not (h.sorted_dates (contractExecs_subset executions k))
      fun a b hab hb => by
        simp only [early, decide_eq_true_eq] at hb ⊢
        exact hab.trans hb
  obtain ⟨later, hlater, hclose⟩ := orderedMatches_append (sorted.filter early)
    (sorted.filter fun e => !early e)
  rw [hsplit] at hlater
  refine ⟨later, hlater, fun m hm hdate => ?_⟩
  have hout := (List.mem_filter.1 (hclose m hm)).2
  simp [early, hdate] at hout

/-- What is read of a group, in sort order, is what is read of its executions up to the end. -/
theorem IsHistory.sortedBy_contractExecs {history read : List Execution}
    (h : IsHistory chicago history) (hread : read.Perm (history.filter fun e => e ∈ read))
    {until_ : Date} (huntil : ∀ e ∈ read, dateOf chicago e ≤ until_) (k : GroupKey) :
    sortedBy (fifoSortKey chicago) (contractExecs read k) =
      (earlyExecs chicago history until_ k).filter fun e => e ∈ read := by
  have hperm : (contractExecs read k).Perm
      ((contractExecs history k).filter fun e => e ∈ read) := by
    refine ((hread.filter _).filter _).trans (List.Perm.of_eq ?_)
    simp only [contractExecs, List.filter_filter]
    exact List.filter_congr fun e _ => by
      simp only [Bool.decide_and, Bool.and_comm, Bool.and_left_comm]
  rw [sortedBy_eq_of_perm hperm, ← filter_sortedBy, earlyExecs]
  · rw [List.filter_filter]
    refine List.filter_congr fun e _ => ?_
    by_cases he : e ∈ read
    · simp [he, huntil e he]
    · simp [he]
  · intro a ha b hb
    have hmem : ∀ e ∈ contractExecs read k, e ∈ history := fun e he =>
      contractExecs_subset history k (List.mem_of_mem_filter (hperm.mem_iff.1 he))
    exact h.fifoSortKey_injOn a (hmem a ha) b (hmem b hb)

/-- The executions read pair, in the range, as they do in the whole history. -/
theorem IsHistory.contractPairs_filterMap_eq {history read : List Execution}
    (h : IsHistory chicago history) (hread : read.Perm (history.filter fun e => e ∈ read))
    {since until_ : Date} (huntil : ∀ e ∈ read, dateOf chicago e ≤ until_)
    (hsuff : ReadSuffices chicago read history since until_) {β : Type*}
    (F : Match Leg ℚ → Option β)
    (hF : ∀ m, F m ≠ none → since ≤ dateOf chicago m.closing.exec ∧
      dateOf chicago m.closing.exec ≤ until_) (k : GroupKey) :
    (contractPairs chicago read k).filterMap F =
      (contractPairs chicago history k).filterMap F := by
  obtain ⟨later, hlater, hlate⟩ := h.contractPairs_early until_ k
  have hlaterF : later.filterMap F = [] := by
    refine List.filterMap_eq_nil_iff.2 fun m hm => ?_
    by_contra hne
    exact hlate m hm (hF m hne).2
  have hmem : ∀ m ∈ orderedMatches (earlyExecs chicago history until_ k),
      (m.opening.exec ∈ read ↔ m.closing.exec ∈ read) ∧
        (since ≤ dateOf chicago m.closing.exec → m.closing.exec ∈ read) := by
    intro m hm
    have hdate : dateOf chicago m.closing.exec ≤ until_ :=
      of_decide_eq_true (List.mem_filter.1 (orderedMatches_mem hm).2).2
    have hall : m ∈ contractPairs chicago history k := by
      rw [hlater]
      exact List.mem_append_left _ hm
    obtain ⟨km, hkm, ho, hc⟩ := exists_optMatch_of_mem_contractPairs chicago hall
    have := hsuff km hkm (hc ▸ hdate)
    rwa [ho, hc] at this
  have hfilter : orderedMatches ((earlyExecs chicago history until_ k).filter
      fun e => e ∈ read) =
        (orderedMatches (earlyExecs chicago history until_ k)).filter
          fun m => m.closing.exec ∈ read :=
    orderedMatches_filter (fun e => decide (e ∈ read)) fun m hm =>
      decide_eq_decide.2 (hmem m hm).1
  rw [hlater, contractPairs, h.sortedBy_contractExecs hread huntil, hfilter,
    List.filterMap_append, hlaterF, List.append_nil, List.filterMap_filter]
  refine List.filterMap_congr fun m hm => ?_
  by_cases hc : m.closing.exec ∈ read
  · simp [hc]
  · simp only [hc, decide_false, Bool.false_eq_true, if_false]
    by_contra hne
    exact hc ((hmem m hm).2 (hF m (Ne.symm hne)).1)

theorem datedPairs_filter_perm {history read : List Execution} (h : IsHistory chicago history)
    (hread : read.Perm (history.filter fun e => e ∈ read)) {since until_ : Date}
    (huntil : ∀ e ∈ read, dateOf chicago e ≤ until_)
    (hsuff : ReadSuffices chicago read history since until_) :
    ((datedPairs chicago read).filter fun x => InRange (some since) (some until_) x.1).Perm
      ((datedPairs chicago history).filter fun x => InRange (some since) (some until_) x.1) := by
  let F : GroupKey → Match Leg ℚ → Option (Date × OptPair) := fun k m =>
    if since ≤ dateOf chicago m.closing.exec ∧ dateOf chicago m.closing.exec ≤ until_ then
      some (dateOf chicago m.closing.exec, toOptPair k m) else none
  have hdated : ∀ executions, (datedPairs chicago executions).filter
      (fun x => InRange (some since) (some until_) x.1) =
        (optMatches chicago executions).filterMap fun km => F km.1 km.2 := by
    intro executions
    rw [datedPairs, List.filter_map, ← List.filterMap_eq_filter, List.map_filterMap]
    refine List.filterMap_congr fun km _ => ?_
    simp only [Function.comp, Option.guard, InRange, Option.mem_some_iff, forall_eq', F]
    split_ifs <;> simp_all
  have hkeys : ∀ {executions : List Execution}, executions ⊆ history →
      executions.map groupKey ⊆ firstSeen (history.map groupKey) := by
    intro executions hsub k hk
    obtain ⟨e, he, rfl⟩ := List.mem_map.1 hk
    exact mem_firstSeen.2 (List.mem_map_of_mem (hsub he))
  have hsub : read ⊆ history := fun e he => List.mem_of_mem_filter (hread.mem_iff.1 he)
  rw [hdated, hdated]
  refine (optMatches_filterMap_perm chicago F (fun _ _ => rfl) read (firstSeen_nodup _)
    (hkeys hsub)).trans ?_
  refine List.Perm.trans (List.Perm.of_eq ?_) (optMatches_filterMap_perm chicago F
    (fun _ _ => rfl) history (firstSeen_nodup _) (hkeys fun _ he => he)).symm
  refine congrArg List.flatten (List.map_congr_left fun k _ => ?_)
  refine h.contractPairs_filterMap_eq hread huntil hsuff (F k) (fun m hm => ?_) k
  by_contra hout
  exact hm (if_neg hout)

end History

/-! ## Rows by day -/

section Rows

variable (chicagoMidnight : Date → ℚ)

/-- One row a day, the days in order. -/
def dayRows (dated : List (Date × OptPair)) : List CalendarRow :=
  (sortedBy id (dated.map Prod.fst).dedup).map fun d =>
    optPeriodRow ⟨chicagoMidnight d, d.isoformat⟩ ((dated.filter fun x => x.1 = d).map Prod.snd)

/-- Two rows that differ at most in the order of their pairs. -/
def SameRow (r r' : CalendarRow) : Prop :=
  r.pairs.Perm r'.pairs ∧ { r with pairs := [] } = { r' with pairs := [] }

theorem SameRow.refl (r : CalendarRow) : SameRow r r := ⟨List.Perm.refl _, rfl⟩

theorem SameRow.symm {r r' : CalendarRow} (h : SameRow r r') : SameRow r' r :=
  ⟨h.1.symm, h.2.symm⟩

theorem SameRow.trans {r r' r'' : CalendarRow} (h : SameRow r r') (h' : SameRow r' r'') :
    SameRow r r'' := ⟨h.1.trans h'.1, h.2.trans h'.2⟩

theorem optPeriodRow_sameRow (pk : PeriodKey) {ps qs : List OptPair} (h : ps.Perm qs) :
    SameRow (optPeriodRow pk ps) (optPeriodRow pk qs) := by
  refine ⟨h, ?_⟩
  simp only [optPeriodRow, h.length_eq, h.countP_eq, (h.map _).sum_eq]

variable {chicagoMidnight}

theorem dayRows_sameRow {xs ys : List (Date × OptPair)} (h : xs.Perm ys) :
    List.Forall₂ SameRow (dayRows chicagoMidnight xs) (dayRows chicagoMidnight ys) := by
  have hdays : sortedBy id (xs.map Prod.fst).dedup = sortedBy id (ys.map Prod.fst).dedup :=
    sortedBy_eq_of_perm ((h.map _).dedup) fun _ _ _ _ hab => hab
  rw [dayRows, dayRows, hdays, List.forall₂_map_left_iff, List.forall₂_map_right_iff]
  exact List.forall₂_same.2 fun d _ => optPeriodRow_sameRow _ ((h.filter _).map _)

/-- The periods of the day granularity are the days. -/
theorem optRows_day (hmono : StrictMono chicagoMidnight) (dated : List (Date × OptPair)) :
    optRows chicagoMidnight .day dated = dayRows chicagoMidnight dated := by
  have hkey : Function.Injective (periodKeyFromDate chicagoMidnight .day) := by
    intro d e hde
    exact hmono.injective (congrArg PeriodKey.startTs hde)
  have hgroups : sortedBy (fun g => g.1.startTs) (groupBy Prod.fst
      (dated.map fun x => (periodKeyFromDate chicagoMidnight .day x.1, x.2))) =
      (sortedBy id (dated.map Prod.fst).dedup).map fun d =>
        (periodKeyFromDate chicagoMidnight .day d,
          (dated.filter fun x => x.1 = d).map fun x =>
            (periodKeyFromDate chicagoMidnight .day x.1, x.2)) := by
    have hfilter : ∀ d,
        ((dated.map fun x => (periodKeyFromDate chicagoMidnight .day x.1, x.2)).filter
          fun x => x.1 = periodKeyFromDate chicagoMidnight .day d) =
        (dated.filter fun x => x.1 = d).map fun x =>
          (periodKeyFromDate chicagoMidnight .day x.1, x.2) := by
      intro d
      rw [List.filter_map]
      exact congrArg _ (List.filter_congr fun x _ => by simp [hkey.eq_iff])
    have hseen : firstSeen ((dated.map fun x =>
        (periodKeyFromDate chicagoMidnight .day x.1, x.2)).map Prod.fst) =
        (firstSeen (dated.map Prod.fst)).map (periodKeyFromDate chicagoMidnight .day) := by
      rw [← firstSeen_map hkey, List.map_map, List.map_map]
      rfl
    have hdays : sortedBy chicagoMidnight (firstSeen (dated.map Prod.fst)) =
        sortedBy id (dated.map Prod.fst).dedup := by
      rw [sortedBy_of_strictMono hmono]
      exact sortedBy_eq_of_perm (firstSeen_perm_dedup _) fun _ _ _ _ hab => hab
    rw [groupBy, hseen, List.map_map, sortedBy_map, ← hdays]
    exact List.map_congr_left fun d _ => Prod.ext rfl (hfilter d)
  rw [optRows, hgroups, dayRows, List.map_map]
  refine List.map_congr_left fun d _ => ?_
  simp only [Function.comp, List.map_map]
  rfl

/-- A part of the pairs that contains whole days has the rows of those days. -/
theorem dayRows_filter (dated : List (Date × OptPair)) (p : Date → Bool) :
    dayRows chicagoMidnight (dated.filter fun x => p x.1) =
      ((sortedBy id (dated.map Prod.fst).dedup).filter p).map fun d =>
        optPeriodRow ⟨chicagoMidnight d, d.isoformat⟩
          ((dated.filter fun x => x.1 = d).map Prod.snd) := by
  have hmem : ∀ d, d ∈ (dated.filter fun x => p x.1).map Prod.fst ↔
      d ∈ dated.map Prod.fst ∧ p d = true := by
    intro d
    simp only [List.mem_map, List.mem_filter]
    constructor
    · rintro ⟨x, ⟨hx, hpx⟩, rfl⟩
      exact ⟨⟨x, hx, rfl⟩, hpx⟩
    · rintro ⟨⟨x, hx, rfl⟩, hpx⟩
      exact ⟨x, ⟨hx, hpx⟩, rfl⟩
  have hdays : sortedBy id ((dated.filter fun x => p x.1).map Prod.fst).dedup =
      (sortedBy id (dated.map Prod.fst).dedup).filter p := by
    rw [filter_sortedBy]
    refine sortedBy_eq_of_perm ?_ fun _ _ _ _ hab => hab
    refine (List.perm_ext_iff_of_nodup (List.nodup_dedup _) ((List.nodup_dedup _).filter _)).2
      fun d => ?_
    rw [List.mem_dedup, List.mem_filter, List.mem_dedup, hmem d]
  rw [dayRows, hdays]
  refine List.map_congr_left fun d hd => ?_
  have hpd := (List.mem_filter.1 hd).2
  rw [List.filter_filter]
  congr 2
  refine List.filter_congr fun x _ => ?_
  by_cases hxd : x.1 = d
  · simp [hxd, hpd]
  · simp [hxd]

/-- Rows of two adjacent ranges. -/
theorem dayRows_append (dated : List (Date × OptPair)) {s u s' u' : Date} (hsu : s ≤ u)
    (hus : u < s') (hsu' : s' ≤ u') (hadj : ∀ d, d ≤ u ∨ s' ≤ d) :
    dayRows chicagoMidnight (dated.filter fun x => InRange (some s) (some u') x.1) =
      dayRows chicagoMidnight (dated.filter fun x => InRange (some s) (some u) x.1) ++
        dayRows chicagoMidnight (dated.filter fun x => InRange (some s') (some u') x.1) := by
  have hrange : ∀ a b d : Date, InRange (some a) (some b) d ↔ a ≤ d ∧ d ≤ b := by
    intro a b d
    simp [InRange]
  let all := dated.filter fun x => InRange (some s) (some u') x.1
  have hlow : (dated.filter fun x => InRange (some s) (some u) x.1) =
      all.filter fun x => decide (x.1 ≤ u) := by
    rw [List.filter_filter]
    refine List.filter_congr fun x _ => ?_
    rw [← Bool.decide_and, decide_eq_decide, hrange, hrange]
    exact ⟨fun h => ⟨h.2, h.1, h.2.trans (hus.le.trans hsu')⟩, fun h => ⟨h.2.1, h.1⟩⟩
  have hhigh : (dated.filter fun x => InRange (some s') (some u') x.1) =
      all.filter fun x => !decide (x.1 ≤ u) := by
    rw [List.filter_filter]
    refine List.filter_congr fun x _ => ?_
    rw [← decide_not, ← Bool.decide_and, decide_eq_decide, hrange, hrange, not_le]
    refine ⟨fun h => ⟨hus.trans_le h.1, hsu.trans (hus.le.trans h.1), h.2⟩, fun h => ?_⟩
    exact ⟨(hadj x.1).resolve_left (not_le.2 h.1), h.2.2⟩
  have hsplit := filter_append_filter_not (p := fun d => decide (d ≤ u))
    (sortedBy_pairwise id (all.map Prod.fst).dedup) fun a b hab hb => by
      simp only [decide_eq_true_eq, id] at hab hb ⊢
      exact hab.trans hb
  rw [hlow, hhigh, dayRows_filter all fun d => decide (d ≤ u),
    dayRows_filter all fun d => !decide (d ≤ u), ← List.map_append, hsplit, dayRows]

/-- The option rows of the calendar. -/
def optRowsOf (rows : List CalendarRow) : List CalendarRow :=
  rows.filter fun r => r.secType = "OPT"

theorem secType_of_mem_optRows {gran : Granularity} {dated : List (Date × OptPair)}
    {r : CalendarRow} (hr : r ∈ optRows chicagoMidnight gran dated) : r.secType = "OPT" := by
  obtain ⟨g, -, rfl⟩ := List.mem_map.1 hr
  rfl

theorem secType_of_mem_otherRows {gran : Granularity} {executions : List Execution}
    {r : CalendarRow} (hr : r ∈ otherRows gran executions) : r.secType ≠ "OPT" := by
  rw [otherRows] at hr
  obtain ⟨g, hg, hgr⟩ := List.mem_map.1 hr
  have hkey := (mem_groupBy.1 (mem_sortedBy.1 hg)).1
  obtain ⟨x, hx, hxg⟩ := List.mem_map.1 hkey
  obtain ⟨e, he, hex⟩ := List.mem_filterMap.1 hx
  have hxe : x.1.2 = secTypeOrUnknown e := by
    cases hd : e.time.bind Date.ofUnixUtc with
    | none => simp [hd] at hex
    | some d =>
      simp only [hd, Option.map_some, Option.some.injEq] at hex
      rw [← hex]
  have hsec : r.secType = g.1.2 := by
    rw [← hgr, fillPeriodRow]
  rw [hsec, ← hxg, hxe]
  exact of_decide_eq_true (List.mem_filter.1 he).2

theorem optRows_sorted (gran : Granularity) (dated : List (Date × OptPair)) :
    (optRows chicagoMidnight gran dated).Pairwise
      fun a b => toLex (a.periodStartTs, a.secType) ≤ toLex (b.periodStartTs, b.secType) := by
  rw [optRows, List.pairwise_map]
  refine (sortedBy_pairwise _ _).imp fun {g g'} h => ?_
  rcases h.lt_or_eq with hlt | heq
  · exact Prod.Lex.toLex_le_toLex.2 (Or.inl hlt)
  · exact Prod.Lex.toLex_le_toLex.2 (Or.inr ⟨heq, le_rfl⟩)

/-- The option rows of the merged calendar are the option calendar. -/
theorem optRowsOf_merged (gran : Granularity) (dated : List (Date × OptPair))
    (others : List Execution) :
    optRowsOf (sortedBy (fun r => toLex (r.periodStartTs, r.secType) : _ → ℚ ×ₗ String)
        (optRows chicagoMidnight gran dated ++ otherRows gran others)) =
      optRows chicagoMidnight gran dated := by
  have hopt : (optRows chicagoMidnight gran dated).filter (fun r => r.secType = "OPT") =
      optRows chicagoMidnight gran dated :=
    List.filter_eq_self.2 fun r hr => by simpa using secType_of_mem_optRows hr
  have hother : (otherRows gran others).filter (fun r => r.secType = "OPT") = [] :=
    List.filter_eq_nil_iff.2 fun r hr => by simpa using secType_of_mem_otherRows hr
  rw [optRowsOf, filter_sortedBy, List.filter_append, hopt, hother, List.append_nil]
  exact sortedBy_of_pairwise (optRows_sorted gran dated)

end Rows

/-! ## The calendar of a range -/

section Range

variable (chicago : ℚ → Option Date) (chicagoMidnight : Date → ℚ)

/-- All executions of an account. -/
def historyOf (book : Book) (accountId : Option String) : List Execution :=
  let account := strip (textOrEmpty accountId)
  (book.rows.filter fun r => account = "" ∨ r.accountId = account).map ExecutionRow.toExecution

variable {chicago chicagoMidnight}

theorem optRowsOf_calendarBySecType {book : Book} {sinceTs untilTs : ℚ} {since until_ : Date}
    (hs : chicago sinceTs = some since) (hu : chicago untilTs = some until_)
    {accountId : Option String} {gran : Granularity} {rows : List CalendarRow}
    (h : calendarBySecType chicago chicagoMidnight book (some sinceTs) (some untilTs) accountId
      gran = some rows) :
    optRowsOf rows = computeOptRealizedCalendar chicago chicagoMidnight
      (optLegs chicago book (some sinceTs) (some untilTs) accountId) gran (some since)
      (some until_) := by
  unfold calendarBySecType at h
  dsimp only at h
  rw [Option.isSome_some, if_pos rfl] at h
  split_ifs at h with hfail
  obtain rfl := Option.some.inj h
  simp only [Option.bind_some, hs, hu]
  exact optRowsOf_merged gran _ _

theorem historyOf_isHistory {book : Book} {accountId : Option String}
    (htime : ∀ e ∈ historyOf book accountId, (e.time.bind chicago).isSome) :
    IsHistory chicago (historyOf book accountId) where
  ids_nodup := by
    rw [historyOf, List.map_map]
    have hids : ((book.rows.filter fun r => strip (textOrEmpty accountId) = "" ∨
        r.accountId = strip (textOrEmpty accountId)).map
          ExecutionRow.accountExecutionsId).Nodup :=
      book.ids_nodup.sublist (List.filter_sublist.map _)
    have := hids.map (Option.some_injective ℤ)
    rwa [List.map_map] at this
  id_isSome e he := by
    obtain ⟨r, -, rfl⟩ := List.mem_map.1 he
    rfl
  dated e he := by
    obtain ⟨d, hd⟩ := Option.isSome_iff_exists.1 (htime e he)
    obtain ⟨r, -, rfl⟩ := List.mem_map.1 he
    cases htd : r.tradeDate with
    | some d' =>
      exact ⟨d', by simp [legDate, ExecutionRow.toExecution, htd],
        by simp [executionDateStrForFifo, ExecutionRow.toExecution, htd]⟩
    | none =>
      refine ⟨d, ?_, ?_⟩
      · simpa [legDate, ExecutionRow.toExecution, htd] using hd
      · have hd' : r.execTime.bind chicago = some d := hd
        simp [executionDateStrForFifo, timeDateStr, ExecutionRow.toExecution, htd, hd']

theorem getExecutions_spec (book : Book) (sinceTs : Option ℚ) {untilTs : ℚ} {until_ : Date}
    (hu : chicago untilTs = some until_) (accountId : Option String) (limit : ℕ) :
    ∃ rows : List ExecutionRow,
      getExecutions chicago book sinceTs (some untilTs) accountId limit =
        rows.map ExecutionRow.toExecution ∧
      (rows.map ExecutionRow.accountExecutionsId).Nodup ∧
      ∀ r ∈ rows, r.toExecution ∈ historyOf book accountId ∧
        ∃ d, r.tradeDate = some d ∧ d ≤ until_ := by
  unfold getExecutions
  by_cases hfail : (∃ ts ∈ sinceTs, chicago ts = none) ∨ ∃ ts ∈ some untilTs, chicago ts = none
  · exact ⟨[], by rw [if_pos hfail, List.map_nil], List.nodup_nil, by simp⟩
  · rw [if_neg hfail]
    refine ⟨_, rfl, ?_, fun r hr => ?_⟩
    · have hids : ∀ rows : List ExecutionRow, rows.Sublist book.rows →
          ((sortedBy readOrder rows).map ExecutionRow.accountExecutionsId).Nodup := fun rows h =>
        ((sortedBy_perm readOrder rows).map _).nodup_iff.2 (book.ids_nodup.sublist (h.map _))
      split_ifs
      · exact (hids _ List.filter_sublist).sublist ((List.take_sublist ..).map _)
      · exact hids _ List.filter_sublist
    · have hmem : ∀ rows : List ExecutionRow,
          (if 0 < limit then (sortedBy readOrder rows).take limit else sortedBy readOrder rows) ⊆
            rows := by
        intro rows x hx
        split_ifs at hx
        exacts [mem_sortedBy.1 (List.mem_of_mem_take hx), mem_sortedBy.1 hx]
      obtain ⟨hrow, hcond⟩ := List.mem_filter.1 (hmem _ hr)
      obtain ⟨-, huntil, hacct⟩ := of_decide_eq_true hcond
      obtain ⟨d, hd, hle⟩ := huntil until_ hu
      refine ⟨List.mem_map_of_mem (List.mem_filter.2 ⟨hrow, decide_eq_true hacct⟩), d, hd, hle⟩

/-- What the look-back reads is part of the history, once each, with a trade date up to the end
of the range. -/
theorem optLegs_spec (book : Book) (sinceTs : ℚ) {untilTs : ℚ} {until_ : Date}
    (hu : chicago untilTs = some until_) (accountId : Option String) :
    (∀ e ∈ optLegs chicago book (some sinceTs) (some untilTs) accountId,
      e ∈ historyOf book accountId ∧ dateOf chicago e ≤ until_) ∧
    ((optLegs chicago book (some sinceTs) (some untilTs) accountId).map
      Execution.accountExecutionsId).Nodup := by
  obtain ⟨rows, hrows, hids, hspec⟩ := getExecutions_spec book
    (some (sinceTs - optPairLookbackDays * 86400)) hu accountId optPairLookbackLimit
  rw [optLegs, hrows, sortedByTime]
  constructor
  · intro e he
    have he := List.mem_of_mem_filter (List.mem_of_mem_filter (mem_sortedBy.1 he))
    obtain ⟨r, hr, rfl⟩ := List.mem_map.1 he
    obtain ⟨hmem, d, hd, hle⟩ := hspec r hr
    refine ⟨hmem, ?_⟩
    have hdate : dateOf chicago r.toExecution = d := by
      simp [dateOf, legDate, ExecutionRow.toExecution, hd]
    rwa [hdate]
  · have hexec : ((rows.map ExecutionRow.toExecution).map
        Execution.accountExecutionsId).Nodup := by
      have := hids.map (Option.some_injective ℤ)
      rwa [List.map_map] at this ⊢
    refine ((sortedBy_perm _ _).map _).nodup_iff.2 (hexec.sublist ?_)
    exact (List.filter_sublist.trans List.filter_sublist).map _

variable (chicago chicagoMidnight)

/-- The option rows of a range are the per-day sums of the pairs of the whole history that close
in it. -/
def RestrictsHistory (book : Book) (accountId : Option String) (sinceTs untilTs : ℚ)
    (since until_ : Date) : Prop :=
  ∀ rows, calendarBySecType chicago chicagoMidnight book (some sinceTs) (some untilTs) accountId
      .day = some rows →
    List.Forall₂ SameRow (optRowsOf rows)
      (dayRows chicagoMidnight ((datedPairs chicago (historyOf book accountId)).filter
        fun x => InRange (some since) (some until_) x.1))

/-- A range of whole Chicago days whose look-back read suffices. -/
structure SufficientRange (book : Book) (accountId : Option String) (sinceTs untilTs : ℚ)
    (since until_ : Date) : Prop where
  since_date : chicago sinceTs = some since
  until_date : chicago untilTs = some until_
  suffices_ : ReadSuffices chicago (optLegs chicago book (some sinceTs) (some untilTs) accountId)
    (historyOf book accountId) since until_

variable {chicago chicagoMidnight}

theorem restrictsHistory_of_sufficient (hmono : StrictMono chicagoMidnight) {book : Book}
    {accountId : Option String}
    (htime : ∀ e ∈ historyOf book accountId, (e.time.bind chicago).isSome)
    {sinceTs untilTs : ℚ} {since until_ : Date}
    (h : SufficientRange chicago book accountId sinceTs untilTs since until_) :
    RestrictsHistory chicago chicagoMidnight book accountId sinceTs untilTs since until_ := by
  intro rows hrows
  have hhist := historyOf_isHistory htime
  obtain ⟨hmem, hids⟩ := optLegs_spec book sinceTs h.until_date accountId
  have hread : IsHistory chicago (optLegs chicago book (some sinceTs) (some untilTs) accountId) :=
    { ids_nodup := hids
      id_isSome := fun e he => hhist.id_isSome e (hmem e he).1
      dated := fun e he => hhist.dated e (hmem e he).1 }
  have hperm : (optLegs chicago book (some sinceTs) (some untilTs) accountId).Perm
      ((historyOf book accountId).filter fun e =>
        e ∈ optLegs chicago book (some sinceTs) (some untilTs) accountId) := by
    refine (List.perm_ext_iff_of_nodup (.of_map _ hids)
      ((List.Nodup.of_map _ hhist.ids_nodup).filter _)).2 fun e => ?_
    rw [List.mem_filter, decide_eq_true_eq]
    exact ⟨fun he => ⟨(hmem e he).1, he⟩, fun he => he.2⟩
  rw [optRowsOf_calendarBySecType h.since_date h.until_date hrows,
    hread.computeOptRealizedCalendar_eq, optRows_day hmono]
  exact dayRows_sameRow
    (datedPairs_filter_perm hhist hperm (fun e he => (hmem e he).2) h.suffices_)

/-- The option calendar of a range restricts the whole history, and adjacent ranges add up,
wherever the look-back read suffices. -/
theorem optCalendar_restrictsHistory (hmono : StrictMono chicagoMidnight) (book : Book)
    (accountId : Option String)
    (htime : ∀ e ∈ historyOf book accountId, (e.time.bind chicago).isSome) :
    (∀ sinceTs untilTs since until_,
      SufficientRange chicago book accountId sinceTs untilTs since until_ →
        RestrictsHistory chicago chicagoMidnight book accountId sinceTs untilTs since until_) ∧
    ∀ s u s' u' rows rows' all, ∀ ds du ds' du' : Date, ds ≤ du → du < ds' → ds' ≤ du' →
      (∀ d, d ≤ du ∨ ds' ≤ d) →
      SufficientRange chicago book accountId s u ds du →
      SufficientRange chicago book accountId s' u' ds' du' →
      SufficientRange chicago book accountId s u' ds du' →
      calendarBySecType chicago chicagoMidnight book (some s) (some u) accountId .day =
        some rows →
      calendarBySecType chicago chicagoMidnight book (some s') (some u') accountId .day =
        some rows' →
      calendarBySecType chicago chicagoMidnight book (some s) (some u') accountId .day =
        some all →
      List.Forall₂ SameRow (optRowsOf rows ++ optRowsOf rows') (optRowsOf all) := by
  refine ⟨fun _ _ _ _ h => restrictsHistory_of_sufficient hmono htime h, ?_⟩
  intro s u s' u' rows rows' all ds du ds' du' hle hlt hle' hadj h h' hall hrows hrows' hallrows
  have h1 := restrictsHistory_of_sufficient hmono htime h rows hrows
  have h2 := restrictsHistory_of_sufficient hmono htime h' rows' hrows'
  have h3 := restrictsHistory_of_sufficient hmono htime hall all hallrows
  rw [dayRows_append _ hle hlt hle' hadj] at h3
  exact forall₂_trans (R := SameRow) (fun _ _ _ h1 h2 => SameRow.trans h1 h2)
    (List.rel_append h1 h2) (h3.flip.imp fun _ _ h => SameRow.symm h)

/-! ### Two days of September -/

instance (read history : List Execution) (since until_ : Date) :
    Decidable (ReadSuffices chicago read history since until_) :=
  inferInstanceAs (Decidable (∀ km ∈ _, _))

/-- The second of September 2026. -/
def sep2 : Date := (Date.ofYmd 2026 9 2).getD Date.epoch

/-- The second of June 2025. -/
def jun2 : Date := (Date.ofYmd 2025 6 2).getD Date.epoch

/-- Dates of the times used below: in June 2025, at the start of a look-back in September 2025,
and on the first two days of September 2026. -/
def sampleChicago (ts : ℚ) : Option Date :=
  if ts < 1756702800 then some jun2
  else if ts < 1788238800 then Date.ofYmd 2025 9 1
  else if ts < 1788325200 then some sep1
  else some sep2

/-- Midnights of September 2026; ascending on all dates. -/
def sampleMidnight (d : Date) : ℚ :=
  1788238800 + 86400 * (372 * ((d.year : ℚ) - 2026) + 31 * ((d.month : ℚ) - 9) + (d.day - 1))

theorem sampleMidnight_strictMono : StrictMono sampleMidnight := by
  intro d e h
  have hd := d.day_le
  have he := e.day_mem.1
  have hmd := d.month_mem.2
  have hme := e.month_mem.1
  have hlt : 372 * d.year + 31 * d.month + d.day < 372 * e.year + 31 * e.month + e.day := by
    rcases Date.lt_iff.1 h with hy | ⟨hy, hm | ⟨hm, hd⟩⟩ <;> omega
  have hq : (372 * d.year + 31 * d.month + d.day : ℚ) < 372 * e.year + 31 * e.month + e.day := by
    exact_mod_cast hlt
  unfold sampleMidnight
  linarith

/-- A row of one contract. -/
def sampleRow (id : ℤ) (side : String) (price : ℚ) (date : Date) (time : ℚ) : ExecutionRow where
  accountExecutionsId := id
  accountId := "U1"
  symbol := some "NVDA"
  secType := some "OPT"
  side := some side
  quantity := some (.fin 1)
  price := some (.fin price)
  commission := some (.fin 1)
  realizedPnl := none
  expiry := some "20270115"
  strike := some (.fin 100)
  optionRight := some "C"
  tradeDate := some date
  execTime := some time

/-- Bought in June 2025, sold on the first of September 2026. -/
def longHeld : Book where
  rows := [sampleRow 1 "BUY" 2 jun2 1748872800,
    sampleRow 2 "SELL" 5 sep1 1788271200]
  ids_nodup := by decide

/-- The pair of a position held longer than the look-back is missing from the day it closes. -/
theorem not_restrictsHistory_longHeld :
    ¬ RestrictsHistory sampleChicago sampleMidnight longHeld (some "U1") 1788238800 1788325199
      sep1 sep1 := by
  intro h
  have hrows : calendarBySecType sampleChicago sampleMidnight longHeld (some 1788238800)
      (some 1788325199) (some "U1") .day = some [] := by decide +kernel
  have hlen := (h [] hrows).length_eq
  revert hlen
  decide +kernel

/-- Bought and in part sold on the first of September 2026, the rest sold on the second. -/
def shortHeld : Book where
  rows := [sampleRow 1 "BUY" 2 sep1 1788271200, sampleRow 2 "BUY" 2 sep1 1788271260,
    sampleRow 3 "SELL" 5 sep1 1788271320, sampleRow 4 "SELL" 1 sep2 1788357600]
  ids_nodup := by decide

theorem sep1_or_sep2 (d : Date) : d ≤ sep1 ∨ sep2 ≤ d := by
  rcases le_or_gt d sep1 with h | h
  · exact Or.inl h
  · refine Or.inr (not_lt.1 fun h' => ?_)
    rw [Date.lt_iff] at h h'
    have h1 : sep1.year = 2026 ∧ sep1.month = 9 ∧ sep1.day = 1 := by decide +kernel
    have h2 : sep2.year = 2026 ∧ sep2.month = 9 ∧ sep2.day = 2 := by decide +kernel
    omega

theorem optCalendar_restrictsHistory_shortHeld :
    RestrictsHistory sampleChicago sampleMidnight shortHeld (some "U1") 1788238800 1788325199
      sep1 sep1 ∧
    ∀ rows rows' all,
      calendarBySecType sampleChicago sampleMidnight shortHeld (some 1788238800)
        (some 1788325199) (some "U1") .day = some rows →
      calendarBySecType sampleChicago sampleMidnight shortHeld (some 1788325200)
        (some 1788411599) (some "U1") .day = some rows' →
      calendarBySecType sampleChicago sampleMidnight shortHeld (some 1788238800)
        (some 1788411599) (some "U1") .day = some all →
      List.Forall₂ SameRow (optRowsOf rows ++ optRowsOf rows') (optRowsOf all) := by
  have htime : ∀ e ∈ historyOf shortHeld (some "U1"), (e.time.bind sampleChicago).isSome := by
    decide +kernel
  obtain ⟨hrange, hadj⟩ :=
    optCalendar_restrictsHistory sampleMidnight_strictMono shortHeld (some "U1") htime
  have h1 : SufficientRange sampleChicago shortHeld (some "U1") 1788238800 1788325199 sep1 sep1 :=
    ⟨by decide +kernel, by decide +kernel, by decide +kernel⟩
  have h2 : SufficientRange sampleChicago shortHeld (some "U1") 1788325200 1788411599 sep2 sep2 :=
    ⟨by decide +kernel, by decide +kernel, by decide +kernel⟩
  have h3 : SufficientRange sampleChicago shortHeld (some "U1") 1788238800 1788411599 sep1 sep2 :=
    ⟨by decide +kernel, by decide +kernel, by decide +kernel⟩
  exact ⟨hrange _ _ _ _ h1, fun rows rows' all => hadj _ _ _ _ rows rows' all sep1 sep1 sep2 sep2
    le_rfl (by decide +kernel) le_rfl sep1_or_sep2 h1 h2 h3⟩

end Range

end Portfolio
