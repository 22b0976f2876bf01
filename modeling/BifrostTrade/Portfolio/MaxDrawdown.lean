import BifrostTrade.Lib.Binary64
import BifrostTrade.Lib.Drawdown
import BifrostTrade.Portfolio.PerformanceStats

/-!
# The largest drawdown

`max_drawdown` of `get_performance_stats` is the largest fall of the curve of the net P&L, counted
from zero, and is `None` where the curve never falls (`maxDrawdown_isGreatest`).
-/

namespace Portfolio

open Py Drawdown

/-! ## The curve -/

/-- The points of a curve of the net P&L, the start at zero first. -/
def netPoints (curve : List (ℚ × ℚ)) : List ℚ := 0 :: curve.map Prod.snd

/-- The points are in time order, and the drawdown is the largest fall between two of them, if it is
positive. -/
structure DrawdownLaw (curve : List (ℚ × ℚ)) (drawdown : Option ℚ) : Prop where
  ordered : curve.Pairwise fun p q => p.1 ≤ q.1
  largest : ∃ d, IsGreatest (falls (netPoints curve)) d ∧
    drawdown = if 0 < d then some d else none

theorem length_running (f : ReadFilter) (executions : List TradeExecution) :
    (((executions.map fun e => (execTotals f e).netPnl).scanl (· + ·) 0).tail.map
      (roundTo 2)).length = executions.length := by
  simp

theorem times_cumulativeCurve (f : ReadFilter) (executions : List TradeExecution) :
    (cumulativeCurve f executions).map Prod.fst = executions.map fun e => e.time.getD 0 := by
  refine List.map_fst_zip ?_
  rw [length_running, List.length_map]

/-- The curve of executions in time order is in time order. -/
theorem ordered_cumulativeCurve (f : ReadFilter) (executions : List TradeExecution) :
    (cumulativeCurve f (tradesByTime executions)).Pairwise fun p q => p.1 ≤ q.1 := by
  have hsorted : (tradesByTime executions).Pairwise fun a b => a.time.getD 0 ≤ b.time.getD 0 :=
    sortedBy_pairwise _ _
  rw [← List.pairwise_map (f := Prod.fst), times_cumulativeCurve, List.pairwise_map]
  exact hsorted

/-! ## Whole cents -/

/-- A number of whole cents. -/
def Cents (x : ℚ) : Prop := ∃ k : ℤ, x = k / 10 ^ 2

theorem Cents.roundTo (x : ℚ) : Cents (roundTo 2 x) := ⟨_, rfl⟩

theorem Cents.zero : Cents 0 := ⟨0, by simp⟩

theorem Cents.sub {x y : ℚ} (hx : Cents x) (hy : Cents y) : Cents (x - y) := by
  obtain ⟨k, rfl⟩ := hx
  obtain ⟨l, rfl⟩ := hy
  exact ⟨k - l, by push_cast; ring⟩

theorem roundTo_of_cents {x : ℚ} (h : Cents x) : roundTo 2 x = x := by
  obtain ⟨k, rfl⟩ := h
  have hk : (k : ℚ) / 10 ^ 2 * 10 ^ 2 = k := div_mul_cancel₀ _ (by norm_num)
  rw [Py.roundTo, hk, round_intCast]

theorem cents_of_mem_netPoints {f : ReadFilter} {executions : List TradeExecution} {x : ℚ}
    (hx : x ∈ netPoints (cumulativeCurve f executions)) : Cents x := by
  rcases List.mem_cons.1 hx with rfl | hx
  · exact Cents.zero
  · obtain ⟨⟨t, v⟩, hp, rfl⟩ := List.mem_map.1 hx
    obtain ⟨y, -, hy⟩ := List.mem_map.1 (List.of_mem_zip hp).2
    rw [← hy]
    exact Cents.roundTo y

/-! ## The loop -/

theorem maxDrawdown_eq (curve : List (ℚ × ℚ)) : maxDrawdown curve =
    if 0 < ((curve.map Prod.snd).foldl step (0, 0)).2 then
      some (roundTo 2 ((curve.map Prod.snd).foldl step (0, 0)).2) else none := by
  rw [List.foldl_map]
  rfl

/-- The loop finds the largest fall. -/
theorem drawdownLaw_cumulativeCurve (f : ReadFilter) (executions : List TradeExecution) :
    DrawdownLaw (cumulativeCurve f (tradesByTime executions))
      (maxDrawdown (cumulativeCurve f (tradesByTime executions))) := by
  refine ⟨ordered_cumulativeCurve f executions, ?_⟩
  have hcents : ∀ x ∈ netPoints (cumulativeCurve f (tradesByTime executions)), Cents x :=
    fun x hx => cents_of_mem_netPoints hx
  generalize cumulativeCurve f (tradesByTime executions) = curve at hcents ⊢
  have hloop := (PeakAndFall.singleton (0 : ℚ)).foldl (curve.map Prod.snd)
  rw [maxDrawdown_eq]
  generalize (curve.map Prod.snd).foldl step (0, 0) = st at hloop ⊢
  have hfall : IsGreatest (falls (netPoints curve)) st.2 := hloop.fall
  refine ⟨st.2, hfall, ?_⟩
  obtain ⟨i, j, x, y, -, hi, hj, hd⟩ := hfall.1
  have hround : roundTo 2 st.2 = st.2 := by
    rw [hd]
    exact roundTo_of_cents ((hcents x (List.mem_of_getElem? hi)).sub
      (hcents y (List.mem_of_getElem? hj)))
  rw [hround]

/-- For every list of executions, and in what `get_performance_stats` answers, the drawdown is the
largest fall of the curve. -/
theorem maxDrawdown_isGreatest (chicago : ℚ → Option Date) (chicagoMidnight : Date → ℚ)
    (book : TradeBook) (sinceTs untilTs : Option ℚ) (f : ReadFilter) (gran : Granularity) :
    (∀ executions, DrawdownLaw (cumulativeCurve f (tradesByTime executions))
      (maxDrawdown (cumulativeCurve f (tradesByTime executions)))) ∧
    ∀ stats ∈ getPerformanceStats chicago chicagoMidnight book sinceTs untilTs f gran,
      DrawdownLaw stats.cumulativeCurve stats.maxDrawdown := by
  refine ⟨drawdownLaw_cumulativeCurve f, fun stats hstats => ?_⟩
  obtain ⟨bySec, -, rfl⟩ := Option.map_eq_some_iff.1 hstats
  exact drawdownLaw_cumulativeCurve f _

end Portfolio
