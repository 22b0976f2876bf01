import BifrostTrade.Portfolio.PayoffProof

/-!
# The hedged structure

`_strip_naked_short_calls` takes the naked contracts off the short calls, the highest strikes first.
There are never more naked contracts than short calls, and what is left loses no more than its
cover: the hedged max loss of `compute_risk_profile` is always a number (`hedgedExact`).
-/

namespace Portfolio

open Py

/-! ## What stripping should do -/

/-- The short call contracts of a leg. -/
def RiskPosition.shortCalls (p : RiskPosition) : ℤ := if p.IsShortCall then |p.qty| else 0

/-- A leg after contracts were taken off it; a leg that loses all of them goes. -/
def remainingLeg (x : RiskPosition × ℤ) : Option RiskPosition :=
  if x.2 ≠ 0 ∧ x.1.qty + x.2 = 0 then none else some { x.1 with qty := x.1.qty + x.2 }

/-- `taken` contracts off each leg, in all `contracts` of them, off the short calls alone and off
the highest strikes first. -/
structure StripsHighest (positions : List RiskPosition) (contracts : ℤ)
    (stripped : List RiskPosition) (taken : List ℤ) : Prop where
  length : taken.length = positions.length
  sum : taken.sum = contracts
  range : ∀ x ∈ positions.zip taken, 0 ≤ x.2 ∧ x.2 ≤ x.1.shortCalls
  highest : ∀ x ∈ positions.zip taken, ∀ y ∈ positions.zip taken,
    x.1.strike < y.1.strike → 0 < x.2 → y.2 = y.1.shortCalls
  rest : stripped = (positions.zip taken).filterMap remainingLeg

/-! ## What the loop takes -/

/-- The contracts that the loop takes off each short call. -/
def takenQuantities : ℤ → List (ℕ × RiskPosition) → List (ℕ × ℤ)
  | _, [] => []
  | rem, (i, p) :: shorts =>
      (i, min rem |p.qty|) :: takenQuantities (rem - min rem |p.qty|) shorts

/-- What is taken off the leg at an index. -/
def takenAt (rem : ℤ) (shorts : List (ℕ × RiskPosition)) (i : ℕ) : ℤ :=
  ((takenQuantities rem shorts).lookup i).getD 0

theorem takenAt_cons_self (rem : ℤ) (i : ℕ) (p : RiskPosition) (shorts : List (ℕ × RiskPosition)) :
    takenAt rem ((i, p) :: shorts) i = min rem |p.qty| := by
  simp [takenAt, takenQuantities]

theorem takenAt_cons_of_ne {i j : ℕ} (h : j ≠ i) (rem : ℤ) (p : RiskPosition)
    (shorts : List (ℕ × RiskPosition)) :
    takenAt rem ((i, p) :: shorts) j = takenAt (rem - min rem |p.qty|) shorts j := by
  rw [takenAt, takenQuantities, List.lookup_cons, beq_false_of_ne h, takenAt]

theorem takenAt_of_not_mem {rem : ℤ} {shorts : List (ℕ × RiskPosition)} {i : ℕ}
    (h : i ∉ shorts.map Prod.fst) : takenAt rem shorts i = 0 := by
  induction shorts generalizing rem with
  | nil => rfl
  | cons s shorts ih =>
    obtain ⟨j, p⟩ := s
    simp only [List.map_cons, List.mem_cons, not_or] at h
    rw [takenAt_cons_of_ne h.1, ih h.2]

/-- With nothing left to take the loop takes nothing. -/
theorem takenAt_zero (shorts : List (ℕ × RiskPosition)) (i : ℕ) : takenAt 0 shorts i = 0 := by
  induction shorts with
  | nil => rfl
  | cons s shorts ih =>
    obtain ⟨j, p⟩ := s
    have hmin : min 0 |p.qty| = 0 := min_eq_left (abs_nonneg _)
    by_cases hj : i = j
    · rw [hj, takenAt_cons_self, hmin]
    · rw [takenAt_cons_of_ne hj, hmin, sub_zero, ih]

section Loop

variable {rem : ℤ} {shorts : List (ℕ × RiskPosition)}

theorem takenAt_range (hrem : 0 ≤ rem) (hnodup : (shorts.map Prod.fst).Nodup) :
    ∀ s ∈ shorts, 0 ≤ takenAt rem shorts s.1 ∧ takenAt rem shorts s.1 ≤ |s.2.qty| := by
  induction shorts generalizing rem with
  | nil => exact fun s hs => absurd hs List.not_mem_nil
  | cons s shorts ih =>
    obtain ⟨i, p⟩ := s
    rw [List.map_cons, List.nodup_cons] at hnodup
    have hp := abs_nonneg p.qty
    intro s hs
    rcases List.mem_cons.1 hs with rfl | hs
    · rw [takenAt_cons_self]
      exact ⟨le_min hrem hp, min_le_right ..⟩
    · have hne : s.1 ≠ i := fun h => hnodup.1 (List.mem_map.2 ⟨s, hs, h⟩)
      rw [takenAt_cons_of_ne hne]
      exact ih (by omega) hnodup.2 s hs

/-- In all the loop takes what it was asked to, as far as there are short calls. -/
theorem sum_takenAt (hrem : 0 ≤ rem) (hnodup : (shorts.map Prod.fst).Nodup) :
    (shorts.map fun s => takenAt rem shorts s.1).sum =
      min rem (shorts.map fun s => |s.2.qty|).sum := by
  induction shorts generalizing rem with
  | nil => simp [hrem]
  | cons s shorts ih =>
    obtain ⟨i, p⟩ := s
    rw [List.map_cons, List.nodup_cons] at hnodup
    have hp := abs_nonneg p.qty
    have htail : (shorts.map fun s => takenAt rem ((i, p) :: shorts) s.1) =
        shorts.map fun s => takenAt (rem - min rem |p.qty|) shorts s.1 := by
      refine List.map_congr_left fun s hs => takenAt_cons_of_ne (fun h => hnodup.1 ?_) ..
      exact List.mem_map.2 ⟨s, hs, h⟩
    have hsum : 0 ≤ (shorts.map fun s => |s.2.qty|).sum :=
      List.sum_nonneg fun x hx => by
        obtain ⟨s, -, rfl⟩ := List.mem_map.1 hx
        exact abs_nonneg _
    rw [List.map_cons, List.map_cons, List.sum_cons, List.sum_cons, takenAt_cons_self, htail,
      ih (by omega) hnodup.2]
    dsimp only
    omega

/-- The loop goes on to a leg only when it has taken all of the legs before it. -/
theorem takenAt_of_pairwise {R : ℕ × RiskPosition → ℕ × RiskPosition → Prop} (hrem : 0 ≤ rem)
    (hnodup : (shorts.map Prod.fst).Nodup) (hsorted : shorts.Pairwise R) :
    ∀ s ∈ shorts, ∀ t ∈ shorts, ¬ R s t → s ≠ t → 0 < takenAt rem shorts s.1 →
      takenAt rem shorts t.1 = |t.2.qty| := by
  induction shorts generalizing rem with
  | nil => exact fun s hs => absurd hs List.not_mem_nil
  | cons u shorts ih =>
    obtain ⟨i, p⟩ := u
    rw [List.map_cons, List.nodup_cons] at hnodup
    rw [List.pairwise_cons] at hsorted
    have hp := abs_nonneg p.qty
    have hne : ∀ s ∈ shorts, s.1 ≠ i := fun s hs h => hnodup.1 (List.mem_map.2 ⟨s, hs, h⟩)
    intro s hs t ht hR hst hpos
    rcases List.mem_cons.1 hs with rfl | hs
    · -- nothing stands before the first leg
      rcases List.mem_cons.1 ht with rfl | ht
      · exact absurd rfl hst
      · exact absurd (hsorted.1 t ht) hR
    · rw [takenAt_cons_of_ne (hne s hs)] at hpos
      rcases List.mem_cons.1 ht with rfl | ht
      · rw [takenAt_cons_self]
        by_contra hpart
        dsimp only at hpart
        have hleft : rem - min rem |p.qty| = 0 := by omega
        rw [hleft, takenAt_zero] at hpos
        exact lt_irrefl _ hpos
      · rw [takenAt_cons_of_ne (hne t ht)]
        exact ih (by omega) hnodup.2 hsorted.2 s hs t ht hR hst hpos

/-- The quantities the loop writes down are those of the legs less what it takes. -/
theorem lookup_strippedQuantities (hrem : 0 ≤ rem) (hnodup : (shorts.map Prod.fst).Nodup) :
    ∀ s ∈ shorts, (((strippedQuantities rem shorts).lookup s.1).getD s.2.qty) =
      s.2.qty + takenAt rem shorts s.1 := by
  induction shorts generalizing rem with
  | nil => exact fun s hs => absurd hs List.not_mem_nil
  | cons u shorts ih =>
    obtain ⟨i, p⟩ := u
    have hp := abs_nonneg p.qty
    intro s hs
    rw [strippedQuantities]
    by_cases hzero : rem ≤ 0
    · obtain rfl : rem = 0 := by omega
      rw [if_pos hzero, takenAt_zero]
      simp
    · rw [if_neg hzero]
      rw [List.map_cons, List.nodup_cons] at hnodup
      dsimp only
      rcases List.mem_cons.1 hs with rfl | hs
      · simp [takenAt_cons_self]
      · have hne : s.1 ≠ i := fun h => hnodup.1 (List.mem_map.2 ⟨s, hs, h⟩)
        rw [List.lookup_cons, beq_false_of_ne hne, takenAt_cons_of_ne hne]
        exact ih (by omega) hnodup.2 s hs

theorem lookup_strippedQuantities_of_not_mem {i : ℕ} (h : i ∉ shorts.map Prod.fst) :
    (strippedQuantities rem shorts).lookup i = none := by
  induction shorts generalizing rem with
  | nil => rfl
  | cons u shorts ih =>
    obtain ⟨j, p⟩ := u
    simp only [List.map_cons, List.mem_cons, not_or] at h
    rw [strippedQuantities]
    split_ifs
    · rfl
    · dsimp only
      rw [List.lookup_cons, beq_false_of_ne h.1]
      exact ih h.2

end Loop

/-! ## The legs by index -/

/-- `enumerate(positions)`. -/
def indexedLegs (positions : List RiskPosition) : List (ℕ × RiskPosition) :=
  positions.zipIdx.map fun x => (x.2, x.1)

/-- The short calls in the order of the loop. -/
def orderedShorts (positions : List RiskPosition) : List (ℕ × RiskPosition) :=
  sortedBy (fun x : ℕ × RiskPosition => -x.2.strike)
    ((indexedLegs positions).filter fun x => x.2.IsShortCall)

/-- What is taken off each leg. -/
def takenOff (positions : List RiskPosition) (contracts : ℤ) : List ℤ :=
  (indexedLegs positions).map fun x => takenAt contracts (orderedShorts positions) x.1

variable {positions : List RiskPosition}

theorem map_snd_indexedLegs (positions : List RiskPosition) :
    (indexedLegs positions).map Prod.snd = positions := by
  simp [indexedLegs, Function.comp_def]

theorem nodup_indexedLegs (positions : List RiskPosition) :
    ((indexedLegs positions).map Prod.fst).Nodup := by
  simp [indexedLegs, Function.comp_def, List.nodup_range']

theorem mem_orderedShorts {x : ℕ × RiskPosition} :
    x ∈ orderedShorts positions ↔ x ∈ indexedLegs positions ∧ x.2.IsShortCall := by
  rw [orderedShorts, mem_sortedBy, List.mem_filter, decide_eq_true_eq]

theorem nodup_orderedShorts (positions : List RiskPosition) :
    ((orderedShorts positions).map Prod.fst).Nodup := by
  have hperm := (sortedBy_perm (fun x : ℕ × RiskPosition => -x.2.strike)
    ((indexedLegs positions).filter fun x => x.2.IsShortCall)).map Prod.fst
  refine hperm.nodup_iff.2 ((nodup_indexedLegs positions).sublist ?_)
  exact List.filter_sublist.map Prod.fst

/-- The index of a leg that is no short call is not in the loop. -/
theorem not_mem_orderedShorts {x : ℕ × RiskPosition} (hx : x ∈ indexedLegs positions)
    (hshort : ¬ x.2.IsShortCall) : x.1 ∉ (orderedShorts positions).map Prod.fst := by
  intro hmem
  obtain ⟨y, hy, hyx⟩ := List.mem_map.1 hmem
  obtain ⟨hyleg, hyshort⟩ := mem_orderedShorts.1 hy
  have heq : y = x := List.inj_on_of_nodup_map (nodup_indexedLegs positions) hyleg hx hyx
  exact hshort (heq ▸ hyshort)

theorem zip_takenOff (positions : List RiskPosition) (contracts : ℤ) :
    positions.zip (takenOff positions contracts) = (indexedLegs positions).map fun x =>
      (x.2, takenAt contracts (orderedShorts positions) x.1) := by
  have hzip : ((indexedLegs positions).map Prod.snd).zip (takenOff positions contracts) =
      (indexedLegs positions).map fun x =>
        (x.2, takenAt contracts (orderedShorts positions) x.1) := List.zip_map'
  rwa [map_snd_indexedLegs] at hzip

theorem stripNakedShortCalls_eq {contracts : ℤ} (hpos : 0 < contracts) :
    stripNakedShortCalls positions contracts =
      (positions.zip (takenOff positions contracts)).filterMap remainingLeg := by
  rw [zip_takenOff, List.filterMap_map, stripNakedShortCalls, if_neg hpos.not_ge]
  dsimp only
  rw [← indexedLegs, ← orderedShorts]
  refine List.filterMap_congr fun x hx => ?_
  dsimp only [Function.comp_apply, remainingLeg]
  by_cases hshort : x.2.IsShortCall
  · have hqty := hshort.2
    have hlookup := lookup_strippedQuantities hpos.le (nodup_orderedShorts positions) x
      (mem_orderedShorts.2 ⟨hx, hshort⟩)
    split
    · rename_i q hq
      rw [hq, Option.getD_some] at hlookup
      rw [← hlookup]
      by_cases hall : q = 0
      · rw [if_pos hall, if_pos ⟨by omega, hall⟩]
      · rw [if_neg hall, if_neg fun h => hall h.2]
    · rename_i hq
      rw [hq, Option.getD_none] at hlookup
      have hzero : takenAt contracts (orderedShorts positions) x.1 = 0 := by omega
      simp [hzero]
  · rw [lookup_strippedQuantities_of_not_mem (not_mem_orderedShorts hx hshort),
      takenAt_of_not_mem (not_mem_orderedShorts hx hshort)]
    simp

/-! ## How much is taken -/

theorem shortCalls_of_isShortCall {p : RiskPosition} (h : p.IsShortCall) :
    p.shortCalls = |p.qty| := if_pos h

theorem shortCalls_of_not {p : RiskPosition} (h : ¬ p.IsShortCall) : p.shortCalls = 0 := if_neg h

/-- The short call contracts of all legs. -/
theorem netShortCall_eq_sum (positions : List RiskPosition) :
    netShortCall positions = 100 * (positions.map RiskPosition.shortCalls).sum := by
  induction positions with
  | nil => rfl
  | cons p positions ih =>
    rw [netShortCall_cons, ih, List.map_cons, List.sum_cons, RiskPosition.shortCalls]
    unfold RiskPosition.shares
    split_ifs <;> ring

theorem takenOff_range {contracts : ℤ} (hpos : 0 < contracts) :
    ∀ x ∈ positions.zip (takenOff positions contracts), 0 ≤ x.2 ∧ x.2 ≤ x.1.shortCalls := by
  rw [zip_takenOff]
  intro x hx
  obtain ⟨y, hy, rfl⟩ := List.mem_map.1 hx
  by_cases hshort : y.2.IsShortCall
  · rw [shortCalls_of_isShortCall hshort]
    exact takenAt_range hpos.le (nodup_orderedShorts positions) y
      (mem_orderedShorts.2 ⟨hy, hshort⟩)
  · rw [shortCalls_of_not hshort, takenAt_of_not_mem (not_mem_orderedShorts hy hshort)]
    exact ⟨le_rfl, le_rfl⟩

/-- A function that is zero off the short calls, summed over the legs or over the loop. -/
theorem sum_orderedShorts {f : ℕ × RiskPosition → ℤ}
    (hf : ∀ x ∈ indexedLegs positions, ¬ x.2.IsShortCall → f x = 0) :
    ((orderedShorts positions).map f).sum = ((indexedLegs positions).map f).sum := by
  have hfilter : ∀ l ⊆ indexedLegs positions,
      ((l.filter fun x => x.2.IsShortCall).map f).sum = (l.map f).sum := by
    intro l hl
    induction l with
    | nil => rfl
    | cons x l ih =>
      rw [List.cons_subset] at hl
      by_cases hshort : x.2.IsShortCall
      · rw [List.filter_cons_of_pos (by simpa using hshort), List.map_cons, List.sum_cons,
          ih hl.2, List.map_cons, List.sum_cons]
      · rw [List.filter_cons_of_neg (by simpa using hshort), ih hl.2, List.map_cons,
          List.sum_cons, hf x hl.1 hshort, zero_add]
  rw [orderedShorts, ((sortedBy_perm _ _).map f).sum_eq, hfilter _ (List.Subset.refl _)]

/-- In all the contracts asked for are taken, as far as there are short calls. -/
theorem sum_takenOff {contracts : ℤ} (hpos : 0 < contracts) :
    (takenOff positions contracts).sum =
      min contracts (positions.map RiskPosition.shortCalls).sum := by
  have htaken := sum_takenAt hpos.le (nodup_orderedShorts positions)
  have habs : (orderedShorts positions).map (fun s => |s.2.qty|) =
      (orderedShorts positions).map fun s => s.2.shortCalls :=
    List.map_congr_left fun s hs => (shortCalls_of_isShortCall (mem_orderedShorts.1 hs).2).symm
  rw [habs, sum_orderedShorts fun x _ hshort => shortCalls_of_not hshort,
    sum_orderedShorts fun x hx hshort => takenAt_of_not_mem (not_mem_orderedShorts hx hshort)]
    at htaken
  rw [takenOff, htaken]
  congr 2
  conv_rhs => rw [← map_snd_indexedLegs positions]
  rw [List.map_map]
  rfl

theorem takenOff_highest {contracts : ℤ} (hpos : 0 < contracts) :
    ∀ x ∈ positions.zip (takenOff positions contracts),
      ∀ y ∈ positions.zip (takenOff positions contracts),
        x.1.strike < y.1.strike → 0 < x.2 → y.2 = y.1.shortCalls := by
  have hrange := @takenOff_range positions _ hpos
  intro x hx y hy hstrike htaken
  have hxr := hrange x hx
  have hyr := hrange y hy
  rw [zip_takenOff] at hx hy
  obtain ⟨s, hs, rfl⟩ := List.mem_map.1 hx
  obtain ⟨t, ht, rfl⟩ := List.mem_map.1 hy
  dsimp only at *
  by_cases hshort : t.2.IsShortCall
  · have hsshort : s.2.IsShortCall := by
      by_contra hnot
      rw [shortCalls_of_not hnot] at hxr
      omega
    rw [shortCalls_of_isShortCall hshort]
    refine takenAt_of_pairwise hpos.le (nodup_orderedShorts positions)
      (sortedBy_pairwise (fun x : ℕ × RiskPosition => -x.2.strike) _) s
      (mem_orderedShorts.2 ⟨hs, hsshort⟩) t (mem_orderedShorts.2 ⟨ht, hshort⟩) ?_ ?_ htaken
    · exact not_le.2 (neg_lt_neg hstrike)
    · exact fun heq => hstrike.ne (by rw [heq])
  · rw [shortCalls_of_not hshort] at hyr ⊢
    omega

/-- Stripping takes the contracts asked for, when there are so many, off the highest strikes. -/
theorem stripsHighest {contracts : ℤ} (hpos : 0 < contracts)
    (hle : contracts ≤ (positions.map RiskPosition.shortCalls).sum) :
    StripsHighest positions contracts (stripNakedShortCalls positions contracts)
      (takenOff positions contracts) where
  length := by simp [takenOff, indexedLegs]
  sum := by rw [sum_takenOff hpos, min_eq_left hle]
  range := takenOff_range hpos
  highest := takenOff_highest hpos
  rest := stripNakedShortCalls_eq hpos

/-! ## What is left -/

/-- The legs that remain after contracts were taken off the short calls. -/
theorem nets_filterMap_remainingLeg (l : List (RiskPosition × ℤ))
    (hrange : ∀ x ∈ l, 0 ≤ x.2 ∧ x.2 ≤ x.1.shortCalls) :
    netShortCall (l.filterMap remainingLeg) =
        netShortCall (l.map Prod.fst) - 100 * (l.map Prod.snd).sum ∧
      netLongCall (l.filterMap remainingLeg) = netLongCall (l.map Prod.fst) := by
  induction l with
  | nil => exact ⟨rfl, rfl⟩
  | cons x l ih =>
    obtain ⟨p, k⟩ := x
    obtain ⟨hshorts, hlongs⟩ := ih fun x hx => hrange x (List.mem_cons_of_mem _ hx)
    obtain ⟨hk, hle⟩ := hrange (p, k) (List.mem_cons_self ..)
    simp only [List.map_cons, List.sum_cons, netShortCall_cons, netLongCall_cons] at *
    by_cases hshort : p.IsShortCall
    · have hqty := hshort.2
      rw [shortCalls_of_isShortCall hshort, abs_of_neg hqty] at hle
      have hlong : ¬ (p.right = .C ∧ 0 < p.qty) := fun h => by omega
      rw [if_pos hshort, if_neg hlong, RiskPosition.shares, abs_of_neg hqty]
      by_cases hall : p.qty + k = 0
      · have hgone : remainingLeg (p, k) = none := if_pos ⟨show k ≠ 0 by omega, hall⟩
        rw [List.filterMap_cons_none hgone, hshorts, hlongs]
        constructor <;> omega
      · have hrest : remainingLeg (p, k) = some { p with qty := p.qty + k } :=
          if_neg fun h => hall h.2
        have hstill : RiskPosition.IsShortCall { p with qty := p.qty + k } :=
          ⟨hshort.1, show p.qty + k < 0 by omega⟩
        have hnot : ¬ (p.right = .C ∧ 0 < p.qty + k) := fun h => by omega
        rw [List.filterMap_cons_some hrest, netShortCall_cons, netLongCall_cons, if_pos hstill,
          if_neg hnot, RiskPosition.shares, abs_of_neg hstill.2, hshorts, hlongs]
        dsimp only
        constructor <;> omega
    · rw [shortCalls_of_not hshort] at hle
      obtain rfl : k = 0 := by omega
      have hrest : remainingLeg (p, 0) = some p := by simp [remainingLeg]
      rw [List.filterMap_cons_some hrest, netShortCall_cons, netLongCall_cons, hshorts, hlongs]
      constructor <;> omega

theorem strike_of_mem_remaining {l : List (RiskPosition × ℤ)} {q : RiskPosition}
    (hq : q ∈ l.filterMap remainingLeg) : ∃ x ∈ l, q.strike = x.1.strike := by
  obtain ⟨x, hx, hrest⟩ := List.mem_filterMap.1 hq
  unfold remainingLeg at hrest
  split_ifs at hrest
  exact ⟨x, hx, by rw [← Option.some.inj hrest]⟩

/-- The naked contracts cover the residual, and there are as many short calls. -/
theorem nakedShortCallContracts_bounds {coveredShares : ℤ} (hcov : 0 ≤ coveredShares)
    (hnaked : 0 < nakedShortCallContracts positions coveredShares) :
    netShortCall positions - netLongCall positions - coveredShares ≤
        100 * nakedShortCallContracts positions coveredShares ∧
      nakedShortCallContracts positions coveredShares ≤
        (positions.map RiskPosition.shortCalls).sum := by
  have hlong := netLongCall_nonneg positions
  have hsum := netShortCall_eq_sum positions
  unfold nakedShortCallContracts at hnaked ⊢
  dsimp only at hnaked ⊢
  generalize hres : max 0 (netShortCall positions - netLongCall positions - coveredShares) = res
    at hnaked ⊢
  split_ifs at hnaked ⊢ with hpos
  · constructor
    · have hceil := Int.le_ceil (res / 100 : ℚ)
      have hres' : (res : ℚ) ≤ ((100 * ⌈(res / 100 : ℚ)⌉ : ℤ) : ℚ) := by
        push_cast
        linarith
      have := Int.cast_le.1 hres'
      omega
    · refine Int.ceil_le.2 ?_
      have hres' : (res : ℚ) ≤ ((100 * (positions.map RiskPosition.shortCalls).sum : ℤ) : ℚ) :=
        Int.cast_le.2 (by omega)
      push_cast at hres' ⊢
      linarith
  · exact absurd hnaked (lt_irrefl _)

/-! ## The hedged max loss -/

/-- The reported naked contracts are stripped off the highest strikes, what is left has no
unlimited loss, and the reported hedged max loss is its rounded minimum over all prices. -/
structure HedgedExact (positions : List RiskPosition) (coveredShares : ℤ)
    (avgCost : Option ℚ) : Prop where
  strips : ∃ taken, StripsHighest positions
    (computeRiskProfile positions coveredShares avgCost).nakedShortCallContracts
    (stripNakedShortCalls positions
      (computeRiskProfile positions coveredShares avgCost).nakedShortCallContracts) taken
  bounded : BddBelow (payoffTotal (stripNakedShortCalls positions
    (computeRiskProfile positions coveredShares avgCost).nakedShortCallContracts) coveredShares
    avgCost '' Set.Ici 0)
  loss : ∃ m, IsLeast (payoffTotal (stripNakedShortCalls positions
      (computeRiskProfile positions coveredShares avgCost).nakedShortCallContracts) coveredShares
      avgCost '' Set.Ici 0) m ∧
    (computeRiskProfile positions coveredShares avgCost).hedgedMaxLoss = some (round2 m)

/-- Without its naked calls a structure has a hedged max loss, and it is exact. -/
theorem hedgedExact {coveredShares : ℤ} {avgCost : Option ℚ} (hne : positions ≠ [])
    (hstrike : ∀ p ∈ positions, 0 ≤ p.strike) (hcov : 0 ≤ coveredShares)
    (hcost : coveredShares = 0 ∨ avgCost.isSome)
    (hnaked : 0 < (computeRiskProfile positions coveredShares avgCost).nakedShortCallContracts) :
    HedgedExact positions coveredShares avgCost := by
  have hcontracts : (computeRiskProfile positions coveredShares avgCost).nakedShortCallContracts =
      nakedShortCallContracts positions coveredShares := by
    rw [computeRiskProfile, if_neg hne]
  rw [hcontracts] at hnaked
  obtain ⟨hresidual, hle⟩ := nakedShortCallContracts_bounds hcov hnaked
  have hstrips := stripsHighest hnaked hle
  have hzip : (positions.zip (takenOff positions (nakedShortCallContracts positions
      coveredShares))).map Prod.fst = positions :=
    List.map_fst_zip (by rw [hstrips.length])
  have hzip' : (positions.zip (takenOff positions (nakedShortCallContracts positions
      coveredShares))).map Prod.snd = takenOff positions _ :=
    List.map_snd_zip (by rw [hstrips.length])
  obtain ⟨hshorts, hlongs⟩ := nets_filterMap_remainingLeg _ hstrips.range
  rw [← hstrips.rest, hzip, hzip', hstrips.sum] at hshorts
  rw [← hstrips.rest, hzip] at hlongs
  have hbounded : ¬ hasUnlimitedDownside
      (stripNakedShortCalls positions (nakedShortCallContracts positions coveredShares))
      coveredShares := by
    unfold hasUnlimitedDownside
    omega
  have hstrike' : ∀ q ∈ stripNakedShortCalls positions
      (nakedShortCallContracts positions coveredShares), 0 ≤ q.strike := by
    intro q hq
    rw [hstrips.rest] at hq
    obtain ⟨x, hx, hqx⟩ := strike_of_mem_remaining hq
    rw [hqx]
    exact hstrike x.1 (List.of_mem_zip hx).1
  obtain ⟨m, hleast, hm⟩ := isLeast_of_computeEnvelope hstrike' hcov hcost hbounded
  refine ⟨?_, ?_, ?_⟩
  · rw [hcontracts]
    exact ⟨_, hstrips⟩
  · rw [hcontracts]
    exact ⟨m, hleast.2⟩
  · rw [hcontracts]
    refine ⟨m, hleast, ?_⟩
    simp [computeRiskProfile, hne, hnaked, hm]

/-- Three short calls of two strikes, a long call, and fifty shares. -/
theorem hedgedExact_call_ladder :
    HedgedExact [⟨50, .C, -2, 2, none⟩, ⟨60, .C, -1, 1, none⟩, ⟨40, .C, 1, 9, none⟩] 50
      (some 45) :=
  hedgedExact (by decide) (by decide) (by decide) (by decide) (by decide +kernel)

end Portfolio
