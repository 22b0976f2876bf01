import BifrostTrade.Portfolio.PerformanceConserved

/-!
# The two performance readers of a trade

`get_performance_stats` drops the executions without a time and counts every other one;
`get_performance_instance_summary_only` drops those without a share of the trade.  Their summaries
agree, in exact arithmetic, exactly when the executions without a time make no difference
(`performanceReadersAgree_iff`).
-/

namespace Portfolio

open Py

/-! ## The figures of a trade -/

/-- The realised P&L of an execution for the trade. -/
def realizedFor (t : ℤ) (e : TradeExecution) : ℚ :=
  finiteOrZero e.realizedPnl * weightRealizedForTrade e t

/-- The commission of an execution for the trade. -/
def commissionFor (t : ℤ) (e : TradeExecution) : ℚ :=
  finiteOrZero e.commission * weightRealizedForTrade e t

/-- The execution has a share of the trade. -/
def HasShare (t : ℤ) (e : TradeExecution) : Prop := 0 < weightRealizedForTrade e t

instance (t : ℤ) (e : TradeExecution) : Decidable (HasShare t e) :=
  inferInstanceAs (Decidable (_ < _))

/-- The executions with a time. -/
def timed (executions : List TradeExecution) : List TradeExecution :=
  executions.filter fun e => e.time.isSome

/-- The executions without a time. -/
def untimed (executions : List TradeExecution) : List TradeExecution :=
  executions.filter fun e => !e.time.isSome

/-- The executions that the trade has a share of. -/
def sharing (t : ℤ) (executions : List TradeExecution) : List TradeExecution :=
  executions.filter fun e => HasShare t e

theorem weight_nonneg (e : TradeExecution) (t : ℤ) : 0 ≤ weightRealizedForTrade e t := by
  have hsize : 0 ≤ splitSize e.fillSplits := List.sum_nonneg fun x hx => by
    obtain ⟨a, -, rfl⟩ := List.mem_map.1 hx
    exact abs_nonneg _
  unfold weightRealizedForTrade
  dsimp only
  split_ifs
  · exact le_rfl
  · cases splitOf e.fillSplits t with
    | none => exact le_rfl
    | some mine => exact div_nonneg (abs_nonneg _) hsize
  · exact zero_le_one
  · exact le_rfl

/-- An execution without a share adds nothing. -/
theorem figures_of_not_hasShare {e : TradeExecution} {t : ℤ} (h : ¬ HasShare t e) :
    realizedFor t e = 0 ∧ commissionFor t e = 0 := by
  have hzero : weightRealizedForTrade e t = 0 := le_antisymm (not_lt.1 h) (weight_nonneg e t)
  rw [realizedFor, commissionFor, hzero, mul_zero, mul_zero]
  exact ⟨rfl, rfl⟩

/-- What fills of the trade add up to. -/
theorem sum_execTotals (t : ℤ) (executions : List TradeExecution) :
    (executions.map (execTotals (tradeFilter none none t))).sum =
      ⟨(executions.map (realizedFor t)).sum, (executions.map (commissionFor t)).sum,
        (executions.map (realizedFor t)).sum - (executions.map (commissionFor t)).sum,
        executions.length⟩ := by
  induction executions with
  | nil => ext <;> simp
  | cons e l ih =>
    have he : execTotals (tradeFilter none none t) e =
        ⟨realizedFor t e, commissionFor t e, realizedFor t e - commissionFor t e, 1⟩ := rfl
    rw [List.map_cons, List.sum_cons, ih, he]
    ext
    · simp
    · simp
    · simp
      ring
    · simp [add_comm]

section Parts

variable (executions : List TradeExecution)

theorem sum_timed_add_untimed (g : TradeExecution → ℚ) :
    ((timed executions).map g).sum + ((untimed executions).map g).sum =
      (executions.map g).sum := by
  rw [← List.sum_append, ← List.map_append]
  exact ((List.filter_append_perm _ _).map g).sum_eq

theorem countP_timed_add_untimed (p : TradeExecution → Bool) :
    (timed executions).countP p + (untimed executions).countP p = executions.countP p :=
  (List.countP_eq_countP_filter_add _ _ _).symm

theorem sum_sharing {t : ℤ} {g : TradeExecution → ℚ} (hg : ∀ e, ¬ HasShare t e → g e = 0) :
    ((sharing t executions).map g).sum = (executions.map g).sum := by
  induction executions with
  | nil => rfl
  | cons e l ih =>
    rw [sharing, List.filter_cons]
    by_cases he : HasShare t e
    · simpa [he, sharing] using ih
    · simpa [he, sharing, hg e he] using ih

theorem countP_sharing {t : ℤ} {p : TradeExecution → Bool}
    (hp : ∀ e, p e = true → HasShare t e) :
    (sharing t executions).countP p = executions.countP p := by
  rw [sharing, List.countP_filter]
  refine List.countP_congr fun e _ => ?_
  simp only [Bool.and_eq_true, decide_eq_true_eq]
  exact ⟨fun h => h.1, fun h => ⟨h, hp e h⟩⟩

end Parts

/-! ## The two summaries -/

/-- The summaries report the same figures. -/
structure SameFigures (a b : PerformanceSummary) : Prop where
  totalRealizedPnl : a.totalRealizedPnl = b.totalRealizedPnl
  totalCommission : a.totalCommission = b.totalCommission
  netPnl : a.netPnl = b.netPnl
  fillCount : a.fillCount = b.fillCount
  winCount : a.winCount = b.winCount
  lossCount : a.lossCount = b.lossCount

theorem summaryOfFills_counts (totals : PnlTotals) (fills : List PnlTotals) :
    (summaryOfFills totals fills).winCount = (fills.countP fun x => 0 < x.totalPnl) ∧
      (summaryOfFills totals fills).lossCount = fills.countP fun x => x.totalPnl < 0 := by
  simp only [summaryOfFills, performanceSummary, ← List.countP_eq_length_filter, List.countP_map]
  exact ⟨rfl, rfl⟩

/-- The summary of fills of a trade, from what they add up to. -/
theorem sameFigures_iff (t : ℤ) (a b : List TradeExecution) {x y : PnlTotals}
    (hx : x = (a.map (execTotals (tradeFilter none none t))).sum)
    (hy : y = (b.map (execTotals (tradeFilter none none t))).sum) :
    SameFigures (summaryOfFills x (a.map (execTotals (tradeFilter none none t))))
        (summaryOfFills y (b.map (execTotals (tradeFilter none none t)))) ↔
      (roundTo 2 (a.map (realizedFor t)).sum = roundTo 2 (b.map (realizedFor t)).sum ∧
        roundTo 2 (a.map (commissionFor t)).sum = roundTo 2 (b.map (commissionFor t)).sum ∧
        roundTo 2 ((a.map (realizedFor t)).sum - (a.map (commissionFor t)).sum) =
          roundTo 2 ((b.map (realizedFor t)).sum - (b.map (commissionFor t)).sum)) ∧
      a.length = b.length ∧
      (a.countP fun e => 0 < realizedFor t e) = (b.countP fun e => 0 < realizedFor t e) ∧
      (a.countP fun e => realizedFor t e < 0) = b.countP fun e => realizedFor t e < 0 := by
  have hcount : ∀ (z : PnlTotals) (l : List TradeExecution),
      (summaryOfFills z (l.map (execTotals (tradeFilter none none t)))).winCount =
        (l.countP fun e => 0 < realizedFor t e) ∧
      (summaryOfFills z (l.map (execTotals (tradeFilter none none t)))).lossCount =
        l.countP fun e => realizedFor t e < 0 := by
    intro z l
    obtain ⟨hwin, hloss⟩ := summaryOfFills_counts z
      (l.map (execTotals (tradeFilter none none t)))
    rw [List.countP_map] at hwin hloss
    exact ⟨hwin, hloss⟩
  rw [sum_execTotals] at hx hy
  subst hx hy
  constructor
  · rintro ⟨hpnl, hcomm, hnet, hfill, hwin, hloss⟩
    rw [(hcount _ a).1, (hcount _ b).1] at hwin
    rw [(hcount _ a).2, (hcount _ b).2] at hloss
    exact ⟨⟨hpnl, hcomm, hnet⟩, hfill, hwin, hloss⟩
  · rintro ⟨⟨hpnl, hcomm, hnet⟩, hfill, hwin, hloss⟩
    refine ⟨hpnl, hcomm, hnet, hfill, ?_, ?_⟩
    · rw [(hcount _ a).1, (hcount _ b).1, hwin]
    · rw [(hcount _ a).2, (hcount _ b).2, hloss]

/-- The executions without a time make no difference to the figures of the trade: they realise
nothing, as many of them have a share as others have none, and their commission is lost in the
rounding to cents. -/
structure UntimedLost (t : ℤ) (executions : List TradeExecution) : Prop where
  realized : ∀ e ∈ untimed executions, realizedFor t e = 0
  number : ((untimed executions).countP fun e => HasShare t e) =
    (timed executions).countP fun e => !HasShare t e
  commission : roundTo 2 ((timed executions).map (commissionFor t)).sum =
    roundTo 2 (executions.map (commissionFor t)).sum
  net : roundTo 2 (((timed executions).map (realizedFor t)).sum -
      ((timed executions).map (commissionFor t)).sum) =
    roundTo 2 (((timed executions).map (realizedFor t)).sum -
      (executions.map (commissionFor t)).sum)

/-- The executions without a time have no P&L exactly when none of them wins or loses. -/
theorem untimed_realized_iff (t : ℤ) (executions : List TradeExecution) :
    (∀ e ∈ untimed executions, realizedFor t e = 0) ↔
      ((untimed executions).countP fun e => 0 < realizedFor t e) = 0 ∧
        ((untimed executions).countP fun e => realizedFor t e < 0) = 0 := by
  simp only [List.countP_eq_zero, decide_eq_true_eq, not_lt]
  exact ⟨fun h => ⟨fun e he => (h e he).le, fun e he => (h e he).ge⟩,
    fun h e he => le_antisymm (h.1 e he) (h.2 e he)⟩

theorem sum_timed_realized {t : ℤ} {executions : List TradeExecution}
    (h : ∀ e ∈ untimed executions, realizedFor t e = 0) :
    ((timed executions).map (realizedFor t)).sum = (executions.map (realizedFor t)).sum := by
  have hnone : ((untimed executions).map (realizedFor t)).sum = 0 := by
    refine List.sum_eq_zero fun x hx => ?_
    obtain ⟨e, he, rfl⟩ := List.mem_map.1 hx
    exact h e he
  rw [← sum_timed_add_untimed executions (realizedFor t), hnone, add_zero]

theorem length_sharing (t : ℤ) (executions : List TradeExecution) :
    (sharing t executions).length = (timed executions).countP (fun e => HasShare t e) +
      (untimed executions).countP fun e => HasShare t e := by
  rw [countP_timed_add_untimed, sharing, List.countP_eq_length_filter]

theorem length_timed (t : ℤ) (executions : List TradeExecution) :
    (timed executions).length = (timed executions).countP (fun e => HasShare t e) +
      (timed executions).countP fun e => !HasShare t e := by
  rw [List.length_eq_countP_add_countP fun e => decide (HasShare t e)]
  simp

/-- The figures of the executions with a time are those of the executions with a share exactly
when the executions without a time make no difference. -/
theorem timed_sharing_iff (t : ℤ) (executions : List TradeExecution) :
    ((roundTo 2 ((timed executions).map (realizedFor t)).sum =
          roundTo 2 ((sharing t executions).map (realizedFor t)).sum ∧
        roundTo 2 ((timed executions).map (commissionFor t)).sum =
          roundTo 2 ((sharing t executions).map (commissionFor t)).sum ∧
        roundTo 2 (((timed executions).map (realizedFor t)).sum -
            ((timed executions).map (commissionFor t)).sum) =
          roundTo 2 (((sharing t executions).map (realizedFor t)).sum -
            ((sharing t executions).map (commissionFor t)).sum)) ∧
      (timed executions).length = (sharing t executions).length ∧
      ((timed executions).countP fun e => 0 < realizedFor t e) =
        ((sharing t executions).countP fun e => 0 < realizedFor t e) ∧
      ((timed executions).countP fun e => realizedFor t e < 0) =
        (sharing t executions).countP fun e => realizedFor t e < 0) ↔
      UntimedLost t executions := by
  have hshare : ∀ e, realizedFor t e ≠ 0 → HasShare t e := fun e he =>
    not_not.1 fun h => he (figures_of_not_hasShare h).1
  rw [sum_sharing executions fun e he => (figures_of_not_hasShare he).1,
    sum_sharing executions fun e he => (figures_of_not_hasShare he).2,
    countP_sharing executions fun e he => hshare e (of_decide_eq_true he).ne',
    countP_sharing executions fun e he => hshare e (of_decide_eq_true he).ne]
  have hwin := countP_timed_add_untimed executions fun e => decide (0 < realizedFor t e)
  have hloss := countP_timed_add_untimed executions fun e => decide (realizedFor t e < 0)
  have hlength := length_sharing t executions
  have htimed := length_timed t executions
  constructor
  · rintro ⟨⟨-, hcomm, hnet⟩, hfills, hwins, hlosses⟩
    have hrealized : ∀ e ∈ untimed executions, realizedFor t e = 0 :=
      (untimed_realized_iff t executions).2 ⟨by omega, by omega⟩
    exact ⟨hrealized, by omega, hcomm, by rw [hnet, sum_timed_realized hrealized]⟩
  · intro h
    obtain ⟨hwin0, hloss0⟩ := (untimed_realized_iff t executions).1 h.realized
    have hnumber := h.number
    have hnet := h.net
    rw [sum_timed_realized h.realized] at hnet ⊢
    exact ⟨⟨rfl, h.commission, hnet⟩, by omega, by omega, by omega⟩

/-! ## The readers -/

section Readers

variable (chicago : ℚ → Option Date) (chicagoMidnight : Date → ℚ)

/-- Every execution that is in the filters. -/
def allExecutions (book : TradeBook) (sinceTs untilTs : Option ℚ) (f : ReadFilter) :
    List TradeExecution :=
  getTradeExecutions chicago book sinceTs untilTs f 0

/-- The two readers answer with the same figures for the trade, in exact arithmetic. -/
def PerformanceReadersAgree (book : TradeBook) (sinceTs untilTs : Option ℚ) (gran : Granularity)
    (t : ℤ) : Prop :=
  ∃ stats, getPerformanceStats chicago chicagoMidnight book sinceTs untilTs
      (tradeFilter none none t) gran = some stats ∧
    SameFigures stats.summary (getPerformanceInstanceSummaryOnly chicago book t sinceTs untilTs)

/-- The times of the range have dates, where `get_performance_stats` asks for them, and so have
those of the executions. -/
structure HaveDates (sinceTs untilTs : Option ℚ) (executions : List TradeExecution) : Prop where
  since : ∀ ts ∈ sinceTs, (chicago ts).isSome
  until_ : sinceTs.isSome → ∀ ts ∈ untilTs, (chicago ts).isSome
  times : ∀ e ∈ timed executions, (e.time.bind Date.ofUnixUtc).isSome

theorem isSome_tradeCalendarBySecType (book : TradeBook) (sinceTs untilTs : Option ℚ)
    (f : ReadFilter) (gran : Granularity) :
    (tradeCalendarBySecType chicago chicagoMidnight book sinceTs untilTs f gran).isSome ↔
      HaveDates chicago sinceTs untilTs
        (getTradeExecutions chicago book sinceTs untilTs f 5000) := by
  have htimed : ∀ l : List TradeExecution,
      (∃ e ∈ tradesByTime l, e.time.bind Date.ofUnixUtc = none) ↔
      ∃ e ∈ timed l, e.time.bind Date.ofUnixUtc = none := by
    intro l
    simp only [tradesByTime, mem_sortedBy, timed]
  unfold tradeCalendarBySecType
  simp only [htimed]
  split_ifs with hfail
  · refine iff_of_false Bool.false_ne_true fun h => ?_
    rcases hfail with ⟨ts, hts, hnone⟩ | ⟨hsome, ts, hts, hnone⟩ | ⟨e, he, hnone⟩
    · simpa [hnone] using h.since ts hts
    · simpa [hnone] using h.until_ hsome ts hts
    · simpa [hnone] using h.times e he
  · simp only [not_or, not_exists, not_and] at hfail
    obtain ⟨hsince, huntil, htimes⟩ := hfail
    refine iff_of_true rfl ⟨fun ts hts => ?_, fun hsome ts hts => ?_, fun e he => ?_⟩
    · exact Option.isSome_iff_ne_none.2 (hsince ts hts)
    · exact Option.isSome_iff_ne_none.2 (huntil hsome ts hts)
    · exact Option.isSome_iff_ne_none.2 (htimes e he)

variable {chicago chicagoMidnight}

/-- A limit that is large enough is none. -/
theorem getTradeExecutions_of_length_le {book : TradeBook} {sinceTs untilTs : Option ℚ}
    {f : ReadFilter} {limit : ℕ} (hpos : 0 < limit)
    (hle : (allExecutions chicago book sinceTs untilTs f).length ≤ limit) :
    getTradeExecutions chicago book sinceTs untilTs f limit =
      allExecutions chicago book sinceTs untilTs f := by
  unfold allExecutions getTradeExecutions at *
  dsimp only at hle ⊢
  split_ifs at hle ⊢ with hfail hzero
  · rfl
  · exact absurd hzero (lt_irrefl 0)
  · rw [List.length_map] at hle
    rw [List.take_of_length_le hle]

/-- The summary of one trade is that of the executions with a share of it. -/
theorem getPerformanceInstanceSummaryOnly_eq {book : TradeBook} {sinceTs untilTs : Option ℚ}
    {t : ℤ} {es : List TradeExecution}
    (hread : getTradeExecutions chicago book sinceTs untilTs (tradeFilter none none t) 50000 = es) :
    getPerformanceInstanceSummaryOnly chicago book t sinceTs untilTs =
      summaryOfFills ((sharing t es).map (execTotals (tradeFilter none none t))).sum
        ((sharing t es).map (execTotals (tradeFilter none none t))) := by
  have hfills : getPerformanceInstanceSummaryOnly chicago book t sinceTs untilTs =
      summaryOfFills
        { ((sharing t es).map (execTotals (tradeFilter none none t))).sum with
          netPnl :=
            ((sharing t es).map (execTotals (tradeFilter none none t))).sum.totalPnl -
              ((sharing t es).map (execTotals (tradeFilter none none t))).sum.commission }
        ((sharing t es).map (execTotals (tradeFilter none none t))) := by
    rw [getPerformanceInstanceSummaryOnly, hread]
    rfl
  rw [hfills, sum_execTotals]

/-- For a trade with at most 5000 executions the two readers agree exactly when the times have
dates and the executions without a time make no difference. -/
theorem performanceReadersAgree_iff {book : TradeBook} {sinceTs untilTs : Option ℚ} {t : ℤ}
    (hle : (allExecutions chicago book sinceTs untilTs (tradeFilter none none t)).length ≤ 5000)
    (gran : Granularity) :
    PerformanceReadersAgree chicago chicagoMidnight book sinceTs untilTs gran t ↔
      HaveDates chicago sinceTs untilTs
          (allExecutions chicago book sinceTs untilTs (tradeFilter none none t)) ∧
        UntimedLost t (allExecutions chicago book sinceTs untilTs (tradeFilter none none t)) := by
  have hread := getTradeExecutions_of_length_le (by norm_num : 0 < 5000) hle
  have hread' := getTradeExecutions_of_length_le (by norm_num : 0 < 50000)
    (hle.trans (by norm_num))
  have hdates := isSome_tradeCalendarBySecType chicago chicagoMidnight book sinceTs untilTs
    (tradeFilter none none t) gran
  rw [hread] at hdates
  generalize allExecutions chicago book sinceTs untilTs (tradeFilter none none t) = es at *
  have hperm : (performanceExecutions chicago book sinceTs untilTs (tradeFilter none none t)).Perm
      (timed es) := by
    rw [performanceExecutions, hread]
    exact sortedBy_perm _ _
  have hsame : SameFigures (summaryOfFills
      (realizedBreakdown (tradeFilter none none t) gran
        (performanceExecutions chicago book sinceTs untilTs (tradeFilter none none t))).totals
      ((performanceExecutions chicago book sinceTs untilTs (tradeFilter none none t)).map
        (execTotals (tradeFilter none none t))))
      (getPerformanceInstanceSummaryOnly chicago book t sinceTs untilTs) ↔ UntimedLost t es := by
    rw [getPerformanceInstanceSummaryOnly_eq hread', ← timed_sharing_iff]
    refine (sameFigures_iff t _ (sharing t es) rfl rfl).trans ?_
    simp only [(hperm.map _).sum_eq, hperm.length_eq, hperm.countP_eq]
  unfold PerformanceReadersAgree getPerformanceStats
  constructor
  · rintro ⟨stats, hstats, hfigures⟩
    obtain ⟨bySec, hbySec, rfl⟩ := Option.map_eq_some_iff.1 hstats
    exact ⟨hdates.1 (hbySec ▸ rfl), hsame.1 hfigures⟩
  · rintro ⟨hhave, hlost⟩
    obtain ⟨bySec, hbySec⟩ := Option.isSome_iff_exists.1 (hdates.2 hhave)
    exact ⟨_, by rw [hbySec, Option.map_some], hsame.2 hlost⟩

end Readers

/-! ### A fill without a time -/

/-- A stock sale of trade 1 that realised a hundred, with its trade date and no time. -/
def untimedSale : AttributedRow where
  toExecutionRow := { sampleRow 1 "SELL" 5 sep1 0 with
    secType := some "STK", realizedPnl := some (.fin 100), execTime := none }
  contractKey := none
  taxes := none
  netCash := none
  tradeId := some 1
  tradeLabel := none
  strategyOpportunityId := none
  strategyOpportunityName := none
  fillSplits := []

/-- The sale as a book. -/
def untimedBook : TradeBook where
  rows := [untimedSale]
  ids_nodup := by decide

theorem performanceReadersAgree_iff_untimedBook :
    PerformanceReadersAgree sampleChicago sampleMidnight untimedBook none none .day 1 ↔
      HaveDates sampleChicago none none
          (allExecutions sampleChicago untimedBook none none (tradeFilter none none 1)) ∧
        UntimedLost 1
          (allExecutions sampleChicago untimedBook none none (tradeFilter none none 1)) :=
  performanceReadersAgree_iff (by decide +kernel) .day

/-- One reader counts the sale and the other does not. -/
theorem not_performanceReadersAgree_untimedBook :
    ¬ PerformanceReadersAgree sampleChicago sampleMidnight untimedBook none none .day 1 := by
  rintro ⟨stats, hstats, hsame⟩
  have hcount : ((getPerformanceStats sampleChicago sampleMidnight untimedBook none none
      (tradeFilter none none 1) .day).map fun s => s.summary.fillCount) = some 0 := by
    decide +kernel
  have hinstance : (getPerformanceInstanceSummaryOnly sampleChicago untimedBook 1 none
      none).fillCount = 1 := by decide +kernel
  rw [hstats, Option.map_some, Option.some.injEq, hsame.fillCount, hinstance] at hcount
  cases hcount

end Portfolio
