import BifrostTrade.Portfolio.PerformanceStats
import BifrostTrade.Portfolio.TradeCalendarLaw
import Mathlib.Algebra.Order.BigOperators.Group.List

/-!
# The realised P&L is conserved

Every aggregate of `get_performance_stats` adds up to its summary, and the rows by trade share each
fill among the trades it is attributed to (`realizedBreakdown_conserved`).
-/

namespace Portfolio

open Py

/-! ## Attribution -/

/-- A fill is of no trade, of one as a whole, or split over different trades; the ids of trades
come from a sequence. -/
def TradeExecution.Attributed (e : TradeExecution) : Prop :=
  e.fillSplits = [] ∨ e.tradeId = none ∧ (e.fillSplits.map FillSplit.tradeId).Nodup ∧
    ∀ a ∈ e.fillSplits, 0 < a.tradeId ∧ a.quantity ≠ 0

instance (e : TradeExecution) : Decidable e.Attributed := inferInstanceAs (Decidable (_ ∨ _))

/-- The trades a fill is attributed to. -/
def TradeExecution.trades (e : TradeExecution) : List ℤ :=
  if e.fillSplits = [] then e.tradeId.toList else e.fillSplits.map FillSplit.tradeId

theorem splitSize_pos {splits : List FillSplit} (hne : splits ≠ [])
    (hqty : ∀ a ∈ splits, a.quantity ≠ 0) : 0 < splitSize splits := by
  cases splits with
  | nil => exact absurd rfl hne
  | cons a rest =>
    have hrest : 0 ≤ splitSize rest := List.sum_nonneg fun x hx => by
      obtain ⟨b, -, rfl⟩ := List.mem_map.1 hx
      exact abs_nonneg _
    have ha : 0 < |a.quantity| := abs_pos.2 (hqty a List.mem_cons_self)
    have hsum : splitSize (a :: rest) = |a.quantity| + splitSize rest := List.sum_cons
    linarith

/-- Of splits over different trades no more than one is of a trade. -/
theorem filter_trade {splits : List FillSplit} (hnd : (splits.map FillSplit.tradeId).Nodup)
    (t : ℤ) : (splits.filter fun a => a.tradeId = t) = (splitOf splits t).toList := by
  induction splits with
  | nil => rfl
  | cons a splits ih =>
    rw [List.map_cons, List.nodup_cons] at hnd
    rw [splitOf, List.find?_cons, List.filter_cons]
    by_cases ha : a.tradeId = t
    · have hrest : (splits.filter fun a => a.tradeId = t) = [] := by
        refine List.filter_eq_nil_iff.2 fun b hb hbt => hnd.1 ?_
        rw [ha, ← of_decide_eq_true hbt]
        exact List.mem_map_of_mem hb
      simp [ha, hrest]
    · simpa [ha, splitOf] using ih hnd.2

/-- The shares of the splits are those of the trades. -/
theorem weight_of_mem {e : TradeExecution} (hnd : (e.fillSplits.map FillSplit.tradeId).Nodup)
    (hsize : 0 < splitSize e.fillSplits) {a : FillSplit} (ha : a ∈ e.fillSplits) :
    weightRealizedForTrade e a.tradeId = |a.quantity| / splitSize e.fillSplits := by
  rw [weightRealizedForTrade, if_pos (List.ne_nil_of_mem ha)]
  dsimp only
  rw [if_neg (not_le.2 hsize), splitOf_of_mem hnd ha]
  rfl

/-- The trades of a fill share it. -/
theorem sum_weights {e : TradeExecution} (he : e.Attributed) (htrades : e.trades ≠ []) :
    (e.trades.map (weightRealizedForTrade e)).sum = 1 := by
  unfold TradeExecution.trades at htrades ⊢
  rcases he with hwhole | ⟨-, hnd, hsplits⟩
  · rw [if_pos hwhole] at htrades ⊢
    cases htrade : e.tradeId with
    | none => simp [htrade] at htrades
    | some t => simp [weightRealizedForTrade, hwhole, htrade]
  · split_ifs at htrades ⊢ with hnil
    · rw [hnil] at hsplits
      cases htrade : e.tradeId with
      | none => simp [htrade] at htrades
      | some t => simp [weightRealizedForTrade, hnil, htrade]
    · have hsize := splitSize_pos hnil fun a ha => (hsplits a ha).2
      rw [List.map_map, Function.comp_def,
        List.map_congr_left fun a ha => weight_of_mem hnd hsize ha]
      have hsum := sum_shares hsize.ne' 1
      simpa using hsum

/-! ## Fields of sums -/

theorem sum_totalPnl (l : List PnlTotals) : l.sum.totalPnl = (l.map PnlTotals.totalPnl).sum := by
  induction l with
  | nil => rfl
  | cons a l ih => simp [ih]

theorem sum_commission (l : List PnlTotals) :
    l.sum.commission = (l.map PnlTotals.commission).sum := by
  induction l with
  | nil => rfl
  | cons a l ih => simp [ih]

/-! ## The rows by trade -/

/-- The figure of an execution that is shared. -/
inductive Figure where
  | realizedPnl
  | commission

/-- The figure of one execution. -/
def Figure.ofExecution : Figure → TradeExecution → ℚ
  | realizedPnl, e => finiteOrZero e.realizedPnl
  | commission, e => finiteOrZero e.commission

/-- The figure of a breakdown. -/
def Figure.ofTotals : Figure → PnlTotals → ℚ
  | realizedPnl, x => x.totalPnl
  | commission, x => x.commission

theorem Figure.ofTotals_sum (g : Figure) (l : List PnlTotals) :
    g.ofTotals l.sum = (l.map g.ofTotals).sum := by
  cases g with
  | realizedPnl => exact sum_totalPnl l
  | commission => exact sum_commission l

theorem Figure.ofTotals_splitTotals (g : Figure) (e : TradeExecution) (a : FillSplit) :
    g.ofTotals (splitTotals e a) =
      g.ofExecution e * (|a.quantity| / splitSize e.fillSplits) := by
  cases g <;> rfl

theorem Figure.ofTotals_wholeTotals (g : Figure) (e : TradeExecution) :
    g.ofTotals (wholeTotals e) = g.ofExecution e := by
  cases g <;> rfl

/-- Without a filter an attributed fill is added once, in parts. -/
theorem sum_instParts (g : Figure) {e : TradeExecution} (he : e.Attributed) :
    ((instParts none e).map fun x => g.ofTotals x.2).sum =
      if e.trades = [] then 0 else g.ofExecution e := by
  unfold instParts TradeExecution.trades
  by_cases hnil : e.fillSplits = []
  · have hcounts : WholeCounts none e := fun t ht => by cases ht
    rw [if_neg (not_not_intro hnil), if_pos hcounts, if_pos hnil]
    cases e.tradeId with
    | none => rfl
    | some t => simp [g.ofTotals_wholeTotals]
  · obtain ⟨-, -, hsplits⟩ := he.resolve_left hnil
    have hsize := splitSize_pos hnil fun a ha => (hsplits a ha).2
    rw [if_pos hnil, if_neg (not_le.2 hsize), if_neg hnil, if_neg (by simpa using hnil),
      List.map_map, ← sum_shares hsize.ne' (g.ofExecution e)]
    exact congrArg List.sum (List.map_congr_left fun a _ => g.ofTotals_splitTotals e a)

/-- What is added to the row of a trade is the trade's share. -/
theorem sum_instParts_of_trade (g : Figure) {e : TradeExecution} (he : e.Attributed) (t : ℤ) :
    (((instParts none e).filter fun x => x.1 = t).map fun x => g.ofTotals x.2).sum =
      g.ofExecution e * weightRealizedForTrade e t := by
  unfold instParts weightRealizedForTrade
  by_cases hnil : e.fillSplits = []
  · have hcounts : WholeCounts none e := fun t ht => by cases ht
    rw [if_neg (not_not_intro hnil), if_pos hcounts, if_neg (not_not_intro hnil)]
    cases htrade : e.tradeId with
    | none => simp
    | some s =>
      by_cases hs : s = t
      · simp [hs, g.ofTotals_wholeTotals]
      · simp [hs]
  · obtain ⟨-, hnd, hsplits⟩ := he.resolve_left hnil
    have hsize := splitSize_pos hnil fun a ha => (hsplits a ha).2
    have hfilter : (e.fillSplits.filter ((fun x : ℤ × PnlTotals => decide (x.1 = t)) ∘
        fun a => (a.tradeId, splitTotals e a))) = (splitOf e.fillSplits t).toList :=
      filter_trade hnd t
    rw [if_pos hnil, if_neg (not_le.2 hsize), if_pos hnil]
    dsimp only
    rw [if_neg (not_le.2 hsize), workAllocs, List.filter_map, hfilter]
    cases splitOf e.fillSplits t with
    | none => simp
    | some a => simp [g.ofTotals_splitTotals]

/-- A filter on a trade adds the whole share of the trade as one fill. -/
theorem instParts_of_selected {e : TradeExecution} (he : e.Attributed) {t : ℤ}
    (hsel : e.tradeId = some t ∨ ∃ a ∈ e.fillSplits, a.tradeId = t) {f : ReadFilter}
    (hf : f.tradeId = some t) : instParts (some t) e = [(t, execTotals f e)] := by
  unfold instParts execTotals perfInstWeight
  rw [hf]
  by_cases hnil : e.fillSplits = []
  · have htrade : e.tradeId = some t := by
      rcases hsel with htrade | ⟨a, ha, -⟩
      · exact htrade
      · rw [hnil] at ha
        cases ha
    have hcounts : WholeCounts (some t) e := fun s hs => Option.mem_some_iff.1 hs ▸ htrade
    rw [if_neg (not_not_intro hnil), if_pos hcounts]
    simp [weightRealizedForTrade, hnil, htrade, wholeTotals]
  · obtain ⟨hnone, hnd, hsplits⟩ := he.resolve_left hnil
    obtain ⟨a, ha, rfl⟩ := hsel.resolve_left (by simp [hnone])
    have hsize := splitSize_pos hnil fun a ha => (hsplits a ha).2
    have hwork : workAllocs (some a.tradeId) e = [a] := by
      have hids : workAllocs (some a.tradeId) e =
          e.fillSplits.filter fun b => b.tradeId = a.tradeId :=
        List.filter_congr fun b hb => by rw [if_neg (hsplits b hb).1.ne']
      rw [hids, filter_trade hnd, splitOf_of_mem hnd ha]
      rfl
    rw [if_pos hnil, if_neg (not_le.2 hsize), hwork, List.map_singleton, splitTotals]
    dsimp only
    rw [weight_of_mem hnd hsize ha]

/-! ## Conservation -/

/-- The aggregates add up to the summary, and the rows by trade share the attributed fills. -/
structure RealizedConserved (f : ReadFilter) (executions : List TradeExecution)
    (b : RealizedBreakdown) : Prop where
  byAccount : (b.byAccount.map Prod.snd).sum = b.totals
  bySecType : (b.bySecType.map Prod.snd).sum = b.totals
  byAccountAndSecType : (b.byAccountAndSecType.map Prod.snd).sum = b.totals
  calendar : (b.calendar.map PeriodRow.totals).sum = b.totals
  /-- Without a filter the rows by trade add up to the attributed fills. -/
  byTrade : f.tradeId = none → ∀ g : Figure,
    (b.byTrade.map fun x => g.ofTotals x.2).sum =
      ((executions.filter fun e => e.trades ≠ []).map g.ofExecution).sum
  /-- Each row by trade is the share of the trade, and the shares of a fill are one. -/
  tradeRow : f.tradeId = none → ∀ g : Figure, ∀ x ∈ b.byTrade,
    g.ofTotals x.2 = (executions.map fun e => g.ofExecution e * weightRealizedForTrade e x.1).sum
  weights : ∀ e ∈ executions, e.trades ≠ [] → (e.trades.map (weightRealizedForTrade e)).sum = 1
  /-- With a filter the one row by trade is the summary. -/
  ofTrade : ∀ t ∈ f.tradeId, b.byTrade = if executions = [] then [] else [(t, b.totals)]

theorem sum_sortedBy {κ μ M : Type} [LinearOrder μ] [AddCommMonoid M] (key : κ → μ) (l : List κ)
    (g : κ → M) : ((sortedBy key l).map g).sum = (l.map g).sum :=
  ((sortedBy_perm key l).map g).sum_eq

theorem mem_getTradeExecutions {chicago : ℚ → Option Date} {book : TradeBook}
    {sinceTs untilTs : Option ℚ} {f : ReadFilter} {limit : ℕ} {e : TradeExecution}
    (he : e ∈ getTradeExecutions chicago book sinceTs untilTs f limit) :
    ∃ r ∈ book.rows, f.Selects r ∧ r.toTradeExecution = e := by
  have hrow : ∀ r ∈ book.rows.filter fun r => (∀ s ∈ sinceTs.bind chicago, ∃ d ∈ r.tradeDate, s ≤ d)
      ∧ (∀ u ∈ untilTs.bind chicago, ∃ d ∈ r.tradeDate, d ≤ u) ∧ f.Selects r,
      r ∈ book.rows ∧ f.Selects r := fun r hr =>
    ⟨List.mem_of_mem_filter hr, (of_decide_eq_true (List.mem_filter.1 hr).2).2.2⟩
  unfold getTradeExecutions at he
  dsimp only at he
  split_ifs at he
  · cases he
  · obtain ⟨r, hr, rfl⟩ := List.mem_map.1 he
    exact ⟨r, (hrow r (mem_sortedBy.1 (List.mem_of_mem_take hr))).1,
      (hrow r (mem_sortedBy.1 (List.mem_of_mem_take hr))).2, rfl⟩
  · obtain ⟨r, hr, rfl⟩ := List.mem_map.1 he
    exact ⟨r, (hrow r (mem_sortedBy.1 hr)).1, (hrow r (mem_sortedBy.1 hr)).2, rfl⟩

theorem sum_calendarRows (f : ReadFilter) (gran : Granularity) {executions : List TradeExecution}
    (hdates : ∀ e ∈ executions, (e.time.bind Date.ofUnixUtc).isSome) :
    ((calendarRows f gran executions).map PeriodRow.totals).sum =
      (executions.map (execTotals f)).sum := by
  have hkeyed : ∀ l : List TradeExecution, (∀ e ∈ l, (e.time.bind Date.ofUnixUtc).isSome) →
      (l.filterMap fun e => (e.time.bind Date.ofUnixUtc).map fun d =>
        (periodKeyFromDate Date.midnightUtc gran d, execTotals f e)).map Prod.snd =
      l.map (execTotals f) := by
    intro l hl
    induction l with
    | nil => rfl
    | cons e l ih =>
      obtain ⟨d, hd⟩ := Option.isSome_iff_exists.1 (hl e List.mem_cons_self)
      rw [List.filterMap_cons, hd, Option.map_some]
      dsimp only
      rw [List.map_cons, ih fun e' he' => hl e' (List.mem_cons_of_mem _ he'), List.map_cons]
  have hsum := sum_rollup (M := PnlTotals) Prod.fst Prod.snd
    (executions.filterMap fun e => (e.time.bind Date.ofUnixUtc).map fun d =>
      (periodKeyFromDate Date.midnightUtc gran d, execTotals f e))
  rw [hkeyed executions hdates, rollup, List.map_map] at hsum
  rw [calendarRows, List.map_map, sum_sortedBy, ← hsum]
  rfl

theorem hasDate_of_read {chicago : ℚ → Option Date} {chicagoMidnight : Date → ℚ}
    {book : TradeBook} {sinceTs untilTs : Option ℚ} {f : ReadFilter} {gran : Granularity}
    (hread : (getPerformanceStats chicago chicagoMidnight book sinceTs untilTs f gran).isSome) :
    ∀ e ∈ performanceExecutions chicago book sinceTs untilTs f,
      (e.time.bind Date.ofUnixUtc).isSome := by
  unfold getPerformanceStats tradeCalendarBySecType at hread
  dsimp only at hread
  split_ifs at hread with hfail
  · cases hread
  · intro e he
    rw [Option.isSome_iff_ne_none]
    exact fun hnone => hfail (Or.inr (Or.inr ⟨e, he, hnone⟩))

/-- The fills that `get_performance_stats` reads are attributed and in the filter of the trade. -/
theorem of_mem_performanceExecutions {chicago : ℚ → Option Date} {book : TradeBook}
    (hbook : ∀ r ∈ book.rows, r.toTradeExecution.Attributed) {sinceTs untilTs : Option ℚ}
    {f : ReadFilter} {e : TradeExecution}
    (he : e ∈ performanceExecutions chicago book sinceTs untilTs f) :
    e.Attributed ∧ ∀ t ∈ f.tradeId, e.tradeId = some t ∨ ∃ a ∈ e.fillSplits, a.tradeId = t := by
  obtain ⟨r, hr, hsel, rfl⟩ := mem_getTradeExecutions (mem_tradesByTime he)
  exact ⟨hbook r hr, hsel.2.2⟩

section Breakdown

variable {f : ReadFilter} {executions : List TradeExecution}

theorem sum_byTrade (gran : Granularity) (hattr : ∀ e ∈ executions, e.Attributed)
    (hf : f.tradeId = none) (g : Figure) :
    ((realizedBreakdown f gran executions).byTrade.map fun x => g.ofTotals x.2).sum =
      ((executions.filter fun e => e.trades ≠ []).map g.ofExecution).sum := by
  have hparts : ((rollup Prod.fst Prod.snd (executions.flatMap (instParts none))).map
      fun x => g.ofTotals x.2).sum =
        ((executions.flatMap (instParts none)).map fun x => g.ofTotals x.2).sum := by
    have hsum := congrArg g.ofTotals
      (sum_rollup Prod.fst Prod.snd (executions.flatMap (instParts none)))
    rwa [g.ofTotals_sum, g.ofTotals_sum, List.map_map, List.map_map] at hsum
  rw [realizedBreakdown, hf]
  dsimp only
  rw [sum_sortedBy, hparts]
  clear hparts
  induction executions with
  | nil => rfl
  | cons e l ih =>
    rw [List.flatMap_cons, List.map_append, List.sum_append,
      ih fun e' he' => hattr e' (List.mem_cons_of_mem _ he'),
      sum_instParts g (hattr e List.mem_cons_self), List.filter_cons]
    by_cases htrades : e.trades = [] <;> simp [htrades]

theorem row_byTrade (gran : Granularity) (hattr : ∀ e ∈ executions, e.Attributed)
    (hf : f.tradeId = none) (g : Figure) {x : ℤ × PnlTotals}
    (hx : x ∈ (realizedBreakdown f gran executions).byTrade) :
    g.ofTotals x.2 =
      (executions.map fun e => g.ofExecution e * weightRealizedForTrade e x.1).sum := by
  rw [realizedBreakdown, hf] at hx
  rw [(mem_rollup.1 (mem_sortedBy.1 hx)).2, g.ofTotals_sum, List.map_map]
  clear hx
  induction executions with
  | nil => rfl
  | cons e l ih =>
    rw [List.flatMap_cons, List.filter_append, List.map_append, List.sum_append,
      ih fun e' he' => hattr e' (List.mem_cons_of_mem _ he'), List.map_cons, List.sum_cons,
      ← sum_instParts_of_trade g (hattr e List.mem_cons_self) x.1]
    rfl

theorem byTrade_of_filter (gran : Granularity) (hattr : ∀ e ∈ executions, e.Attributed) {t : ℤ}
    (hf : f.tradeId = some t)
    (hsel : ∀ e ∈ executions, e.tradeId = some t ∨ ∃ a ∈ e.fillSplits, a.tradeId = t) :
    (realizedBreakdown f gran executions).byTrade =
      if executions = [] then []
      else [(t, (realizedBreakdown f gran executions).totals)] := by
  have hparts : executions.flatMap (instParts (some t)) =
      executions.map fun e => (t, execTotals f e) := by
    rw [List.flatMap_congr fun e he => instParts_of_selected (hattr e he) (hsel e he) hf,
      ← List.map_eq_flatMap]
  have hkey : ∀ x ∈ executions.map fun e => (t, execTotals f e), x.1 = t := by
    intro x hx
    obtain ⟨e, -, rfl⟩ := List.mem_map.1 hx
    rfl
  rw [realizedBreakdown, hf]
  dsimp only
  rw [hparts, rollup_of_forall_key hkey, List.map_map]
  simp only [List.map_eq_nil_iff]
  split_ifs
  · rfl
  · rfl

end Breakdown

/-- The realised P&L, the commission, the net P&L and the number of fills of the summary are those
of the rows by account, by security type, by both and by period; the rows by trade share the
attributed fills, and a filter on a trade leaves the summary as its row. -/
theorem realizedBreakdown_conserved (chicago : ℚ → Option Date) (chicagoMidnight : Date → ℚ)
    {book : TradeBook} (hbook : ∀ r ∈ book.rows, r.toTradeExecution.Attributed)
    {sinceTs untilTs : Option ℚ} {f : ReadFilter} {gran : Granularity}
    (hread : (getPerformanceStats chicago chicagoMidnight book sinceTs untilTs f gran).isSome) :
    RealizedConserved f (performanceExecutions chicago book sinceTs untilTs f)
      (realizedBreakdown f gran (performanceExecutions chicago book sinceTs untilTs f)) := by
  have hmem : ∀ e ∈ performanceExecutions chicago book sinceTs untilTs f, e.Attributed ∧
      ∀ t ∈ f.tradeId, e.tradeId = some t ∨ ∃ a ∈ e.fillSplits, a.tradeId = t :=
    fun e he => of_mem_performanceExecutions hbook he
  have hattr := fun e he => (hmem e he).1
  refine ⟨?_, ?_, ?_, ?_, sum_byTrade gran hattr, fun hf g x hx => row_byTrade gran hattr hf g hx,
    fun e he => sum_weights (hattr e he),
    fun t ht => byTrade_of_filter gran hattr ht fun e he => (hmem e he).2 t ht⟩
  · exact (sum_sortedBy _ _ _).trans (sum_rollup _ _ _)
  · exact (sum_sortedBy _ _ _).trans (sum_rollup _ _ _)
  · exact (sum_sortedBy _ _ _).trans (sum_rollup _ _ _)
  · exact sum_calendarRows f gran (hasDate_of_read hread)

theorem realizedBreakdown_conserved_sharedFills :
    RealizedConserved ⟨none, none, some 1⟩
      (performanceExecutions sampleChicago sharedFills none none ⟨none, none, some 1⟩)
      (realizedBreakdown ⟨none, none, some 1⟩ .day
        (performanceExecutions sampleChicago sharedFills none none ⟨none, none, some 1⟩)) :=
  realizedBreakdown_conserved sampleChicago sampleMidnight (by decide) (by decide +kernel)

end Portfolio
