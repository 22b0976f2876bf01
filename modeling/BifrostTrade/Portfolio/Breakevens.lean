import BifrostTrade.Lib.SignChange
import BifrostTrade.Portfolio.PayoffProof
import Mathlib.Analysis.Normed.Field.Lemmas
import Mathlib.Topology.Algebra.Monoid
import Mathlib.Topology.Instances.Rat

/-!
# Breakevens

The breakevens of `_compute_envelope` before they are rounded.  Three rules look for zeros between
neighbouring rows of the grid and one in its last row.  They find every change of sign once, but for
a zero at a grid price that a loss leads up to, which two rules report, a zero at price zero, and
what lies past the grid (`breakevensExact_iff`).
-/

namespace Portfolio

open Py PiecewiseLinear

/-! ## Before rounding -/

/-- The loop of `_compute_envelope`, with the rounding of a breakeven as a parameter. -/
def breakevensBetweenWith (rounding : ℚ → ℚ) : List GridRow → List ℚ
  | a :: b :: rows =>
      (if 0 ≤ a.total ∧ b.total < 0 ∨ a.total < 0 ∧ 0 ≤ b.total then
        if b.price ≠ a.price then
          [rounding (a.price + a.total / (a.total - b.total) * (b.price - a.price))]
        else []
      else if a.total = 0 ∧ 0 < a.price then [a.price] else []) ++
        breakevensBetweenWith rounding (b :: rows)
  | _ => []

/-- The break-evens of a grid: those between its rows, and its last price if the total is zero. -/
def breakevensWith (rounding : ℚ → ℚ) (rows : List GridRow) : List ℚ :=
  let found := breakevensBetweenWith rounding rows
  match rows.getLast? with
  | some r => if r.total = 0 ∧ 0 < r.price ∧ r.price ∉ found then found ++ [r.price] else found
  | none => found

theorem breakevensBetween_eq (rows : List GridRow) :
    breakevensBetween rows = breakevensBetweenWith round2 rows := by
  induction rows using breakevensBetween.induct with
  | case1 a b rows ih => rw [breakevensBetween, breakevensBetweenWith, ih]
  | case2 rows h =>
    rw [breakevensBetween, breakevensBetweenWith]
    · exact h
    · exact h

/-- The code rounds to two decimals. -/
theorem breakevens_eq (rows : List GridRow) : breakevens rows = breakevensWith round2 rows := by
  unfold breakevens breakevensWith
  cases rows.getLast? with
  | none => exact breakevensBetween_eq rows
  | some r => simp only [breakevensBetween_eq]

/-- The breakevens in exact arithmetic. -/
def exactBreakevens (positions : List RiskPosition) (coveredShares : ℤ) (avgCost : Option ℚ) :
    List ℚ :=
  breakevensWith id (getRiskGridRows positions coveredShares avgCost)

/-! ## What breakevens should be -/

/-- Ascending without duplicates, each a positive price at which the P&L is zero, and among them
every positive price at which it changes its sign. -/
structure BreakevensExact (positions : List RiskPosition) (coveredShares : ℤ)
    (avgCost : Option ℚ) : Prop where
  increasing : (exactBreakevens positions coveredShares avgCost).Pairwise (· < ·)
  zero : ∀ x ∈ exactBreakevens positions coveredShares avgCost,
    0 < x ∧ payoffTotal positions coveredShares avgCost x = 0
  complete : ∀ x, 0 < x → ChangesSign (payoffTotal positions coveredShares avgCost) x →
    x ∈ exactBreakevens positions coveredShares avgCost

/-- No loss at a grid price is followed by a zero at a price that is not the last, nothing is lost
after a zero at price zero, and past the grid the P&L does not come back to zero. -/
structure ZerosApart (positions : List RiskPosition) (coveredShares : ℤ) (avgCost : Option ℚ) :
    Prop where
  inner : ∀ a b c, [a, b, c] <:+: pricePoints positions →
    payoffTotal positions coveredShares avgCost a < 0 →
      payoffTotal positions coveredShares avgCost b ≠ 0
  first : ∀ b, [0, b] <:+: pricePoints positions →
    payoffTotal positions coveredShares avgCost 0 = 0 →
      0 ≤ payoffTotal positions coveredShares avgCost b
  beyond : ∀ last ∈ (pricePoints positions).getLast?,
    0 ≤ payoffTotal positions coveredShares avgCost last * (callSlope positions + coveredShares)

/-! ## One pair of neighbours -/

section Points

variable (f : ℚ → ℚ)

/-- What the loop finds between two neighbouring prices. -/
def pairBreakevens (a b : ℚ) : List ℚ :=
  if 0 ≤ f a ∧ f b < 0 ∨ f a < 0 ∧ 0 ≤ f b then if b ≠ a then [root f a b] else []
  else if f a = 0 ∧ 0 < a then [a] else []

/-- What the loop finds on a list of prices. -/
def pointBreakevens : List ℚ → List ℚ
  | a :: b :: points => pairBreakevens f a b ++ pointBreakevens (b :: points)
  | _ => []

variable {f} {a b x : ℚ}

theorem root_left (h : f a = 0) : root f a b = a := by
  rw [root, h, zero_div, zero_mul, add_zero]

theorem root_right (ha : f a ≠ 0) (h : f b = 0) : root f a b = b := by
  rw [root, h, sub_zero, div_self ha, one_mul, add_sub_cancel]

/-- A breakeven of a pair is a zero on it. -/
theorem of_mem_pairBreakevens (hf : AffineBetween f a b) (hab : a < b)
    (h : x ∈ pairBreakevens f a b) : a ≤ x ∧ x ≤ b ∧ f x = 0 := by
  unfold pairBreakevens at h
  split_ifs at h with hsign hprice hzero
  · obtain rfl := List.mem_singleton.1 h
    have hne : f a ≠ f b := by
      rintro heq
      rw [heq] at hsign
      rcases hsign with hsign | hsign <;> linarith [hsign.1, hsign.2]
    obtain ⟨hax, hxb⟩ := root_mem hab.le hsign
    exact ⟨hax, hxb, (eq_zero_iff_root hf hab hne hax hxb).2 rfl⟩
  · exact absurd h List.not_mem_nil
  · obtain rfl := List.mem_singleton.1 h
    exact ⟨le_rfl, hab.le, hzero.1⟩
  · exact absurd h List.not_mem_nil

/-- The right end is a breakeven of the pair only after a loss. -/
theorem right_mem_pairBreakevens_iff (hf : AffineBetween f a b) (hab : a < b) :
    b ∈ pairBreakevens f a b ↔ f a < 0 ∧ f b = 0 := by
  constructor
  · intro h
    have hb := (of_mem_pairBreakevens hf hab h).2.2
    refine ⟨not_le.1 fun ha => ?_, hb⟩
    unfold pairBreakevens at h
    have hsign : ¬ (0 ≤ f a ∧ f b < 0 ∨ f a < 0 ∧ 0 ≤ f b) := by
      rintro (⟨-, hneg⟩ | ⟨hneg, -⟩)
      · exact hneg.ne hb
      · exact ha.not_gt hneg
    rw [if_neg hsign] at h
    split_ifs at h
    · exact hab.ne' (List.mem_singleton.1 h)
    · exact absurd h List.not_mem_nil
  · rintro ⟨ha, hb⟩
    rw [pairBreakevens, if_pos (.inr ⟨ha, hb.ge⟩), if_pos hab.ne', root_right ha.ne hb]
    exact List.mem_singleton_self _

/-- The left end is a breakeven where it is a zero, but for price zero before a P&L that is not
negative. -/
theorem left_mem_pairBreakevens_iff (hf : AffineBetween f a b) (hab : a < b) :
    a ∈ pairBreakevens f a b ↔ f a = 0 ∧ (0 < a ∨ f b < 0) := by
  constructor
  · intro h
    have ha := (of_mem_pairBreakevens hf hab h).2.2
    refine ⟨ha, ?_⟩
    unfold pairBreakevens at h
    split_ifs at h with hsign hprice hzero
    · rcases hsign with hsign | hsign
      · exact .inr hsign.2
      · exact absurd ha hsign.1.ne
    · exact absurd h List.not_mem_nil
    · exact .inl hzero.2
    · exact absurd h List.not_mem_nil
  · rintro ⟨ha, hor⟩
    rw [pairBreakevens]
    by_cases hb : f b < 0
    · rw [if_pos (.inl ⟨ha.ge, hb⟩), if_pos hab.ne', root_left ha]
      exact List.mem_singleton_self _
    · have hsign : ¬ (0 ≤ f a ∧ f b < 0 ∨ f a < 0 ∧ 0 ≤ f b) := by
        rintro (⟨-, hneg⟩ | ⟨hneg, -⟩)
        · exact hb hneg
        · exact hneg.ne ha
      rw [if_neg hsign, if_pos ⟨ha, hor.resolve_right hb⟩]
      exact List.mem_singleton_self _

/-- Ends of opposite signs have the root of their chord as a breakeven. -/
theorem mem_pairBreakevens_of_opposite (hf : AffineBetween f a b) (hab : a < b)
    (h : Opposite (f a) (f b)) (hax : a ≤ x) (hxb : x ≤ b) (hx : f x = 0) :
    x ∈ pairBreakevens f a b := by
  have hsign : 0 ≤ f a ∧ f b < 0 ∨ f a < 0 ∧ 0 ≤ f b := by
    rcases h with h | h
    · exact .inr ⟨h.1, h.2.le⟩
    · exact .inl ⟨h.1.le, h.2⟩
  have hne : f a ≠ f b := by
    intro heq
    rw [heq] at hsign
    rcases hsign with hsign | hsign <;> linarith [hsign.1, hsign.2]
  rw [pairBreakevens, if_pos hsign, if_pos hab.ne', (eq_zero_iff_root hf hab hne hax hxb).1 hx]
  exact List.mem_singleton_self _

/-- A pair of equal prices has no breakeven at price zero. -/
theorem pairBreakevens_zero : pairBreakevens f 0 0 = [] := by
  simp [pairBreakevens]

theorem pairwise_pairBreakevens : (pairBreakevens f a b).Pairwise (· < ·) := by
  unfold pairBreakevens
  split_ifs <;> simp

/-! ## The whole loop -/

variable (f) in
/-- Neighbouring prices: apart and with an affine function between them, or both zero. -/
def Neighbours (a b : ℚ) : Prop := a < b ∧ AffineBetween f a b ∨ a = 0 ∧ b = 0

theorem Neighbours.le (h : Neighbours f a b) : a ≤ b := by
  rcases h with ⟨hab, -⟩ | ⟨rfl, rfl⟩
  exacts [hab.le, le_rfl]

theorem Neighbours.of_mem (h : Neighbours f a b) (hx : x ∈ pairBreakevens f a b) :
    a < b ∧ AffineBetween f a b := by
  rcases h with h | ⟨rfl, rfl⟩
  · exact h
  · rw [pairBreakevens_zero] at hx
    exact absurd hx List.not_mem_nil

variable {points : List ℚ}

/-- A breakeven is a zero on the grid. -/
theorem of_mem_pointBreakevens (hgrid : (a :: points).IsChain (Neighbours f))
    (h : x ∈ pointBreakevens f (a :: points)) :
    a ≤ x ∧ f x = 0 ∧ ∀ last ∈ (a :: points).getLast?, x ≤ last := by
  induction points generalizing a with
  | nil => exact absurd h List.not_mem_nil
  | cons b points ih =>
    rw [List.isChain_cons_cons] at hgrid
    rw [pointBreakevens, List.mem_append] at h
    rw [List.getLast?_cons_cons]
    rcases h with h | h
    · obtain ⟨hab, hf⟩ := hgrid.1.of_mem h
      obtain ⟨hax, hxb, hx⟩ := of_mem_pairBreakevens hf hab h
      refine ⟨hax, hx, fun last hlast => hxb.trans ?_⟩
      -- the last price is the end of a chain that starts at `b`
      have hchain : (b :: points).IsChain (· ≤ ·) := hgrid.2.imp fun _ _ => Neighbours.le
      have hsorted := List.isChain_iff_pairwise.1 hchain
      rcases List.mem_cons.1 (List.mem_of_getLast? hlast) with rfl | hmem
      · exact le_rfl
      · exact (List.pairwise_cons.1 hsorted).1 last hmem
    · obtain ⟨hbx, hx, hlast⟩ := ih hgrid.2 h
      exact ⟨hgrid.1.le.trans hbx, hx, hlast⟩

/-- The breakevens ascend exactly where no inner zero follows a loss. -/
theorem pairwise_pointBreakevens_iff (hgrid : points.IsChain (Neighbours f))
    (hpos : ∀ x ∈ points, 0 ≤ x) :
    (pointBreakevens f points).Pairwise (· < ·) ↔
      ∀ a b c, [a, b, c] <:+: points → f a < 0 → f b ≠ 0 := by
  induction points with
  | nil => simp [pointBreakevens]
  | cons a points ih =>
    cases points with
    | nil =>
      refine iff_of_true List.Pairwise.nil fun b c d hneighbours => ?_
      have hlen := hneighbours.length_le
      simp at hlen
    | cons b points =>
      have hrest := hgrid
      rw [List.isChain_cons_cons] at hrest
      have ih := ih hrest.2 fun x hx => hpos x (List.mem_cons_of_mem _ hx)
      have hneighbours : (∀ u v w, [u, v, w] <:+: a :: b :: points → f u < 0 → f v ≠ 0) ↔
          (points ≠ [] → f a < 0 → f b ≠ 0) ∧
            ∀ u v w, [u, v, w] <:+: b :: points → f u < 0 → f v ≠ 0 := by
        constructor
        · intro h
          refine ⟨fun hne => ?_, fun u v w hin => h u v w (List.infix_cons_iff.2 (.inr hin))⟩
          obtain ⟨c, rest, rfl⟩ := List.exists_cons_of_ne_nil hne
          exact h a b c (List.prefix_append [a, b, c] rest).isInfix
        · rintro ⟨hhead, htail⟩ u v w hin
          rcases List.infix_cons_iff.1 hin with hprefix | hin
          · simp only [List.cons_prefix_cons] at hprefix
            obtain ⟨rfl, rfl, hw⟩ := hprefix
            refine hhead fun hnil => ?_
            rw [hnil] at hw
            exact absurd hw.length_le (by simp)
          · exact htail u v w hin
      rw [hneighbours, pointBreakevens, List.pairwise_append, ih]
      refine ⟨fun ⟨_, htail, hcross⟩ => ⟨fun hne ha hb => ?_, htail⟩,
        fun ⟨hhead, htail⟩ => ⟨pairwise_pairBreakevens, htail, fun x hx y hy => ?_⟩⟩
      · -- the zero is found at the end of one pair and at the start of the next
        obtain ⟨c, rest, rfl⟩ := List.exists_cons_of_ne_nil hne
        have hab : a < b ∧ AffineBetween f a b := by
          rcases hrest.1 with h | ⟨rfl, rfl⟩
          · exact h
          · exact absurd hb ha.ne
        have hright := (right_mem_pairBreakevens_iff hab.2 hab.1).2 ⟨ha, hb⟩
        have hbpos : 0 < b := (hpos a (List.mem_cons_self ..)).trans_lt hab.1
        have hbc : b < c ∧ AffineBetween f b c := by
          rcases (List.isChain_cons_cons.1 hrest.2).1 with h | ⟨rfl, -⟩
          · exact h
          · exact absurd hbpos (lt_irrefl 0)
        have hleft := (left_mem_pairBreakevens_iff hbc.2 hbc.1).2 ⟨hb, .inl hbpos⟩
        exact lt_irrefl b (hcross b hright b (List.mem_append_left _ hleft))
      · obtain ⟨hab, hf⟩ := hrest.1.of_mem hx
        obtain ⟨-, hxb, -⟩ := of_mem_pairBreakevens hf hab hx
        obtain ⟨hby, -, -⟩ := of_mem_pointBreakevens hrest.2 hy
        rcases hxb.lt_or_eq with hlt | rfl
        · exact hlt.trans_le hby
        · refine lt_of_le_of_ne hby fun _ => ?_
          obtain ⟨ha, hb⟩ := (right_mem_pairBreakevens_iff hf hab).1 hx
          refine hhead (fun hnil => ?_) ha hb
          rw [hnil] at hy
          exact absurd hy List.not_mem_nil

/-- Price zero is found exactly where a loss follows it. -/
theorem zero_mem_pointBreakevens_iff (hgrid : points.IsChain (Neighbours f))
    (hpos : ∀ x ∈ points, 0 ≤ x) :
    0 ∈ pointBreakevens f points ↔ ∃ b, [0, b] <:+: points ∧ f 0 = 0 ∧ f b < 0 := by
  induction points with
  | nil =>
    refine iff_of_false List.not_mem_nil ?_
    rintro ⟨b, hin, -⟩
    exact absurd hin.length_le (by simp)
  | cons a points ih =>
    cases points with
    | nil =>
      refine iff_of_false List.not_mem_nil ?_
      rintro ⟨b, hin, -⟩
      exact absurd hin.length_le (by simp)
    | cons b points =>
      rw [List.isChain_cons_cons] at hgrid
      rw [pointBreakevens, List.mem_append,
        ih hgrid.2 fun x hx => hpos x (List.mem_cons_of_mem _ hx)]
      have ha := hpos a (List.mem_cons_self ..)
      have hpair : 0 ∈ pairBreakevens f a b ↔ a = 0 ∧ f 0 = 0 ∧ f b < 0 := by
        rcases hgrid.1 with ⟨hab, hf⟩ | ⟨rfl, rfl⟩
        · constructor
          · intro h
            obtain rfl : a = 0 := le_antisymm (of_mem_pairBreakevens hf hab h).1 ha
            obtain ⟨hzero, hb⟩ := (left_mem_pairBreakevens_iff hf hab).1 h
            exact ⟨rfl, hzero, hb.resolve_left (lt_irrefl 0)⟩
          · rintro ⟨rfl, hzero, hb⟩
            exact (left_mem_pairBreakevens_iff hf hab).2 ⟨hzero, .inr hb⟩
        · rw [pairBreakevens_zero]
          refine iff_of_false List.not_mem_nil ?_
          rintro ⟨-, hzero, hneg⟩
          exact hneg.ne hzero
      rw [hpair]
      constructor
      · rintro (⟨rfl, hzero⟩ | ⟨c, hin, hzero⟩)
        · exact ⟨b, (List.prefix_append [0, b] points).isInfix, hzero⟩
        · exact ⟨c, List.infix_cons_iff.2 (.inr hin), hzero⟩
      · rintro ⟨c, hin, hzero⟩
        rcases List.infix_cons_iff.1 hin with hprefix | hin
        · simp only [List.cons_prefix_cons] at hprefix
          obtain ⟨rfl, rfl, -⟩ := hprefix
          exact .inl ⟨rfl, hzero⟩
        · exact .inr ⟨c, hin, hzero⟩

/-- Before the last price every change of sign is found. -/
theorem mem_pointBreakevens (hgrid : (a :: points).IsChain (Neighbours f)) (hx : 0 < x)
    (hzero : f x = 0) (hsign : ChangesSign f x) (hax : a ≤ x)
    (hlast : ∀ last ∈ (a :: points).getLast?, x < last) :
    x ∈ pointBreakevens f (a :: points) := by
  induction points generalizing a with
  | nil => exact absurd (hlast a rfl) hax.not_gt
  | cons b points ih =>
    rw [List.isChain_cons_cons] at hgrid
    rw [List.getLast?_cons_cons] at hlast
    rw [pointBreakevens, List.mem_append]
    rcases le_or_gt b x with hbx | hxb
    · exact .inr (ih hgrid.2 hbx hlast)
    · left
      have hpair : a < b ∧ AffineBetween f a b := by
        rcases hgrid.1 with h | ⟨rfl, rfl⟩
        · exact h
        · exact absurd hx hxb.not_gt
      rcases hax.lt_or_eq with hlt | rfl
      · exact mem_pairBreakevens_of_opposite hpair.2 hpair.1 (hsign.opposite hpair.2 hlt hxb) hax
          hxb.le hzero
      · exact (left_mem_pairBreakevens_iff hpair.2 hpair.1).2 ⟨hzero, .inl hx⟩

end Points

/-! ## The grid -/

section Grid

variable {positions : List RiskPosition} {coveredShares : ℤ} {avgCost : Option ℚ}

theorem breakevensBetweenWith_gridRow (points : List ℚ) :
    breakevensBetweenWith id (points.map (gridRow positions coveredShares avgCost)) =
      pointBreakevens (payoffTotal positions coveredShares avgCost) points := by
  induction points with
  | nil => rfl
  | cons a points ih =>
    cases points with
    | nil => rfl
    | cons b points =>
      rw [pointBreakevens, ← ih]
      rfl

/-- The loop's breakevens, and the last price where it is a zero that is not among them. -/
theorem exactBreakevens_eq (coveredShares : ℤ) (avgCost : Option ℚ) (hne : positions ≠ [])
    {last : ℚ} (hlast : (pricePoints positions).getLast? = some last) :
    exactBreakevens positions coveredShares avgCost =
      let found := pointBreakevens (payoffTotal positions coveredShares avgCost)
        (pricePoints positions)
      if payoffTotal positions coveredShares avgCost last = 0 ∧ 0 < last ∧ last ∉ found then
        found ++ [last]
      else found := by
  rw [exactBreakevens, getRiskGridRows_of_held (.inl hne), breakevensWith,
    breakevensBetweenWith_gridRow, List.getLast?_map, hlast]
  rfl

/-- Grid prices ascend, and only zero may be there twice. -/
theorem pricePoints_pairwise (hstrike : ∀ p ∈ positions, 0 ≤ p.strike) :
    (pricePoints positions).Pairwise fun a b => a < b ∨ a = 0 ∧ b = 0 := by
  have hnonneg := pricePoints_nonneg hstrike
  have hstrict : (sortedStrikes positions).Pairwise (· < ·) := by
    have hle := sortedBy_pairwise id (positions.map RiskPosition.strike).dedup
    have hne : (sortedStrikes positions).Nodup :=
      (sortedBy_perm id _).nodup_iff.2 (List.nodup_dedup _)
    exact hle.imp₂ (fun _ _ hab hne => lt_of_le_of_ne hab hne) hne
  have hstrikes : ∀ x ∈ sortedStrikes positions, 0 ≤ x := fun x hx =>
    hnonneg x (by simp [pricePoints, hx])
  have hlast : ∀ k ∈ (sortedStrikes positions).getLast?, ∀ x ∈ sortedStrikes positions, x ≤ k := by
    intro k hk x hx
    obtain ⟨l, hl⟩ := List.getLast?_eq_some_iff.1 hk
    rw [hl] at hx hstrict
    rcases List.mem_append.1 hx with hx | hx
    · exact ((List.pairwise_append.1 hstrict).2.2 x hx k (List.mem_singleton_self k)).le
    · exact (List.mem_singleton.1 hx).le
  rw [pricePoints, List.cons_append, List.pairwise_cons, List.pairwise_append]
  refine ⟨fun x hx => ?_, hstrict.imp fun h => .inl h, ?_, fun x hx y hy => ?_⟩
  · have h0 := hnonneg x (by rw [pricePoints, List.cons_append]; exact List.mem_cons_of_mem _ hx)
    rcases h0.lt_or_eq with h | h
    · exact .inl h
    · exact .inr ⟨rfl, h.symm⟩
  · cases (sortedStrikes positions).getLast? <;> simp
  · obtain ⟨k, hk, rfl⟩ := Option.map_eq_some_iff.1 (Option.mem_toList.1 hy)
    have hxk := hlast k hk x hx
    have h0 := hstrikes x hx
    rcases (h0.trans hxk).lt_or_eq with hpos | hzero
    · left
      linarith
    · right
      constructor <;> linarith

theorem pricePoints_isChain (hstrike : ∀ p ∈ positions, 0 ≤ p.strike) (hcov : 0 ≤ coveredShares)
    (hcost : coveredShares = 0 ∨ avgCost.isSome) :
    (pricePoints positions).IsChain
      (Neighbours (payoffTotal positions coveredShares avgCost)) := by
  rw [List.isChain_iff_forall_rel_of_append_cons_cons]
  intro a b l₁ l₂ hsplit
  have hpair := pricePoints_pairwise hstrike
  have hkinks := strikes_subset_pricePoints positions
  rw [hsplit] at hpair hkinks
  obtain ⟨-, hright, hcross⟩ := List.pairwise_append.1 hpair
  obtain ⟨hab, hb⟩ := List.pairwise_cons.1 hright
  rcases hab b (List.mem_cons_self ..) with hlt | hzero
  · refine .inl ⟨hlt, ?_⟩
    refine (payoffTotal_piecewiseLinear positions hcov hcost).between a b hlt.le fun k hk => ?_
    -- every strike lies before the pair or after it
    rcases List.mem_append.1 (hkinks hk) with hl₁ | hk
    · left
      rcases hcross k hl₁ a (List.mem_cons_self ..) with h | ⟨rfl, rfl⟩
      exacts [h.le, le_rfl]
    · rcases List.mem_cons.1 hk with rfl | hk
      · exact .inl le_rfl
      · right
        rcases List.mem_cons.1 hk with rfl | hk
        · exact le_rfl
        · rcases (List.pairwise_cons.1 hb).1 k hk with h | ⟨rfl, rfl⟩
          exacts [h.le, le_rfl]
  · exact .inr hzero

theorem continuous_payoffTotal (positions : List RiskPosition) (coveredShares : ℤ)
    (avgCost : Option ℚ) : Continuous (payoffTotal positions coveredShares avgCost) := by
  have hintrinsic : ∀ p : RiskPosition, Continuous (intrinsic p) := by
    intro p
    unfold intrinsic
    cases p.right with
    | C => exact (continuous_id.sub continuous_const).max continuous_const
    | P => exact (continuous_const.sub continuous_id).max continuous_const
  have hleg : ∀ p : RiskPosition, Continuous (legPayoff p) := by
    intro p
    unfold legPayoff
    split_ifs
    · exact ((hintrinsic p).sub continuous_const).mul continuous_const
    · exact (continuous_const.sub (hintrinsic p)).mul continuous_const
  refine (continuous_list_sum positions fun p _ => hleg p).add ?_
  unfold payoffStockAtPrice
  cases avgCost with
  | none => exact continuous_const
  | some cost =>
    dsimp only
    split_ifs
    · exact continuous_const
    · exact (continuous_id.sub continuous_const).mul continuous_const

/-- What is found, and the last price where it is a zero. -/
theorem mem_exactBreakevens_iff (hne : positions ≠ []) {last x : ℚ}
    (hlast : (pricePoints positions).getLast? = some last) :
    x ∈ exactBreakevens positions coveredShares avgCost ↔
      x ∈ pointBreakevens (payoffTotal positions coveredShares avgCost) (pricePoints positions) ∨
        x = last ∧ payoffTotal positions coveredShares avgCost last = 0 ∧ 0 < last := by
  rw [exactBreakevens_eq coveredShares avgCost hne hlast]
  dsimp only
  split_ifs with h
  · rw [List.mem_append, List.mem_singleton]
    exact or_congr_right ⟨fun hx => ⟨hx, h.1, h.2.1⟩, fun hx => hx.1⟩
  · refine ⟨.inl, ?_⟩
    rintro (hx | ⟨rfl, hzero, hpos⟩)
    · exact hx
    · by_contra hnot
      exact h ⟨hzero, hpos, hnot⟩

/-- The last price comes after what is found. -/
theorem pairwise_exactBreakevens_iff (hne : positions ≠ []) {last : ℚ}
    (hlast : (pricePoints positions).getLast? = some last)
    (hle : ∀ x ∈ pointBreakevens (payoffTotal positions coveredShares avgCost)
      (pricePoints positions), x ≤ last) :
    (exactBreakevens positions coveredShares avgCost).Pairwise (· < ·) ↔
      (pointBreakevens (payoffTotal positions coveredShares avgCost)
        (pricePoints positions)).Pairwise (· < ·) := by
  rw [exactBreakevens_eq coveredShares avgCost hne hlast]
  dsimp only
  split_ifs with h
  · rw [List.pairwise_append]
    refine ⟨fun hp => hp.1, fun hp => ⟨hp, List.pairwise_singleton _ _, fun x hx y hy => ?_⟩⟩
    rw [List.mem_singleton.1 hy]
    exact lt_of_le_of_ne (hle x hx) fun heq => h.2.2 (heq ▸ hx)
  · exact Iff.rfl

theorem le_getLast_pricePoints (hstrike : ∀ p ∈ positions, 0 ≤ p.strike) {last : ℚ}
    (hlast : (pricePoints positions).getLast? = some last) :
    ∀ x ∈ pricePoints positions, x ≤ last := by
  intro x hx
  obtain ⟨l, hl⟩ := List.getLast?_eq_some_iff.1 hlast
  have hpair := pricePoints_pairwise hstrike
  rw [hl] at hpair hx
  rcases List.mem_append.1 hx with hx | hx
  · rcases (List.pairwise_append.1 hpair).2.2 x hx last (List.mem_singleton_self _) with h | h
    · exact h.le
    · exact (h.1.trans h.2.symm).le
  · exact (List.mem_singleton.1 hx).le

/-- **Breakevens.**  Before rounding the breakevens are exactly the changes of sign, in ascending
order, if and only if the zeros of the grid are apart. -/
theorem breakevensExact_iff (hne : positions ≠ []) (hstrike : ∀ p ∈ positions, 0 ≤ p.strike)
    (hcov : 0 ≤ coveredShares) (hcost : coveredShares = 0 ∨ avgCost.isSome) :
    BreakevensExact positions coveredShares avgCost ↔
      ZerosApart positions coveredShares avgCost := by
  have hchain := pricePoints_isChain hstrike hcov hcost
  have hnonneg := pricePoints_nonneg hstrike
  obtain ⟨last, hlast⟩ : ∃ last, (pricePoints positions).getLast? = some last :=
    Option.isSome_iff_exists.1 (by simp [pricePoints])
  have hend := le_getLast_pricePoints hstrike hlast
  have hlastPos : 0 ≤ last := hnonneg last (List.mem_of_getLast? hlast)
  have htail : SlopeFrom (payoffTotal positions coveredShares avgCost) last
      (callSlope positions + coveredShares) := by
    have h := (payoffTotal_piecewiseLinear positions hcov hcost).tail last fun k hk =>
      hend k (strikes_subset_pricePoints positions hk)
    rwa [Int.cast_add] at h
  have hfound : ∀ x ∈ pointBreakevens (payoffTotal positions coveredShares avgCost)
      (pricePoints positions), 0 ≤ x ∧ payoffTotal positions coveredShares avgCost x = 0 ∧
        x ≤ last := by
    intro x hx
    obtain ⟨h0, hzero, hle⟩ := of_mem_pointBreakevens hchain hx
    exact ⟨h0, hzero, hle last hlast⟩
  have hincreasing := (pairwise_exactBreakevens_iff hne hlast fun x hx => (hfound x hx).2.2).trans
    (pairwise_pointBreakevens_iff hchain hnonneg)
  have hzeroMem := zero_mem_pointBreakevens_iff hchain hnonneg
  constructor
  · intro h
    refine ⟨hincreasing.1 h.increasing, fun b hin hzero => ?_, fun last' hlast' => ?_⟩
    · by_contra hneg
      have hmem := hzeroMem.2 ⟨b, hin, hzero, not_le.1 hneg⟩
      exact lt_irrefl 0 (h.zero 0 ((mem_exactBreakevens_iff hne hlast).2 (.inl hmem))).1
    · obtain rfl := Option.some.inj (hlast.symm.trans hlast')
      by_contra hneg
      obtain ⟨x, hx, hsign⟩ := exists_changesSign_of_slopeFrom htail (not_le.1 hneg)
      have hmem := h.complete x (hlastPos.trans_lt hx) hsign
      rcases (mem_exactBreakevens_iff hne hlast).1 hmem with hmem | ⟨rfl, -⟩
      · exact (hfound x hmem).2.2.not_gt hx
      · exact lt_irrefl _ hx
  · intro h
    refine ⟨hincreasing.2 h.inner, fun x hx => ?_, fun x hx hsign => ?_⟩
    · rcases (mem_exactBreakevens_iff hne hlast).1 hx with hmem | ⟨rfl, hzero, hpos⟩
      · obtain ⟨h0, hzero, -⟩ := hfound x hmem
        refine ⟨lt_of_le_of_ne h0 ?_, hzero⟩
        rintro rfl
        obtain ⟨b, hin, hfirst, hneg⟩ := hzeroMem.1 hmem
        exact hneg.not_ge (h.first b hin hfirst)
      · exact ⟨hpos, hzero⟩
    · have hzero :=
        hsign.eq_zero (continuous_payoffTotal positions coveredShares avgCost).continuousAt
      rw [mem_exactBreakevens_iff hne hlast]
      rcases lt_trichotomy x last with hlt | rfl | hgt
      · left
        refine mem_pointBreakevens hchain hx hzero hsign hx.le fun last' hlast' => ?_
        rwa [← Option.some.inj (hlast.symm.trans hlast')]
      · exact .inr ⟨rfl, hzero, hx⟩
      · -- past the grid the slope would have to lead back to zero
        exact absurd (hsign.of_slopeFrom htail hgt) (h.beyond last hlast).not_gt

end Grid

/-! ## A zero reached from a loss -/

/-- A put sold and a call bought at a higher strike for the same premium: nothing is lost or gained
between the strikes. -/
def zeroCostReversal : List RiskPosition := [⟨100, .P, -1, 3, none⟩, ⟨110, .C, 1, 3, none⟩]

theorem breakevensExact_iff_longCall :
    BreakevensExact [⟨10, .C, 1, 2, none⟩] 0 none ↔ ZerosApart [⟨10, .C, 1, 2, none⟩] 0 none :=
  breakevensExact_iff (by decide) (by decide) (by decide) (by decide)

/-- The zero at the put's strike is found by the pair before it and by the pair after it. -/
theorem not_breakevensExact_zeroCostReversal : ¬ BreakevensExact zeroCostReversal 0 none := by
  intro h
  have htwice : exactBreakevens zeroCostReversal 0 none = [100, 100, 110] := by decide +kernel
  have hincreasing := h.increasing
  rw [htwice] at hincreasing
  simp at hincreasing

end Portfolio
