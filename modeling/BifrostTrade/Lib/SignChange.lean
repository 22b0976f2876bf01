import BifrostTrade.Lib.PiecewiseLinear
import Mathlib.Topology.Order.DenselyOrdered
import Mathlib.Topology.Order.OrderClosed

/-!
# Changes of sign

Where a function that is affine between neighbours of a grid changes its sign: inside a segment it
does so only at the root of a chord whose ends have opposite signs, and past the grid only where the
last value and the slope have opposite signs.
-/

namespace PiecewiseLinear

variable {K : Type*} [Field K] {f : K → K} {a b x : K}

/-- Where the chord from `a` to `b` meets zero. -/
def root (f : K → K) (a b : K) : K := a + f a / (f a - f b) * (b - a)

theorem sub_root (hne : f a ≠ f b) : (x - root f a b) * (f b - f a) = (x - a) * (f b - f a) +
    f a * (b - a) := by
  have hden : f a - f b ≠ 0 := sub_ne_zero.2 hne
  rw [root]
  field_simp
  ring

variable [LinearOrder K]

/-- `f` takes both signs in every neighbourhood of `x`. -/
def ChangesSign [TopologicalSpace K] (f : K → K) (x : K) : Prop :=
  (∃ᶠ y in nhds x, f y < 0) ∧ ∃ᶠ y in nhds x, 0 < f y

/-- The values at two places have opposite signs. -/
def Opposite (u v : K) : Prop := u < 0 ∧ 0 < v ∨ 0 < u ∧ v < 0

section Segment

variable [IsStrictOrderedRing K]

/-- On an affine segment the zeros are the root of the chord. -/
theorem eq_zero_iff_root (hf : AffineBetween f a b) (hab : a < b) (hne : f a ≠ f b) (hax : a ≤ x)
    (hxb : x ≤ b) : f x = 0 ↔ x = root f a b := by
  have hchord := hf x hax hxb
  have hroot := sub_root (x := x) hne
  have hlen : b - a ≠ 0 := (sub_pos.2 hab).ne'
  have hden : f b - f a ≠ 0 := sub_ne_zero.2 hne.symm
  have hprod : (b - a) * f x = (x - root f a b) * (f b - f a) := by
    linear_combination hchord - hroot
  constructor
  · intro hx
    rw [hx, mul_zero] at hprod
    exact sub_eq_zero.1 ((mul_eq_zero.1 hprod.symm).resolve_right hden)
  · rintro hx
    rw [sub_eq_zero.2 hx, zero_mul] at hprod
    exact (mul_eq_zero.1 hprod).resolve_left hlen

/-- The chord meets zero on the segment where its ends are not on the same side. -/
theorem root_mem (hab : a ≤ b) (h : 0 ≤ f a ∧ f b < 0 ∨ f a < 0 ∧ 0 ≤ f b) :
    a ≤ root f a b ∧ root f a b ≤ b := by
  have hshare : 0 ≤ f a / (f a - f b) ∧ f a / (f a - f b) ≤ 1 := by
    rcases h with ⟨ha, hb⟩ | ⟨ha, hb⟩
    · exact ⟨div_nonneg ha (by linarith), (div_le_one (by linarith)).2 (by linarith)⟩
    · exact ⟨div_nonneg_of_nonpos ha.le (by linarith),
        (div_le_one_of_neg (by linarith)).2 (by linarith)⟩
  have hlen : 0 ≤ b - a := sub_nonneg.2 hab
  rw [root]
  constructor
  · linarith [mul_nonneg hshare.1 hlen]
  · linarith [mul_le_mul_of_nonneg_right hshare.2 hlen]

/-- Between ends on one side the segment stays there. -/
theorem nonneg_of_ends (hf : AffineBetween f a b) (hab : a < b) (ha : 0 ≤ f a) (hb : 0 ≤ f b)
    (hax : a ≤ x) (hxb : x ≤ b) : 0 ≤ f x := by
  have hchord := hf x hax hxb
  have hsum : 0 ≤ (b - a) * f x := by
    rw [hchord]
    exact add_nonneg (mul_nonneg (sub_nonneg.2 hxb) ha) (mul_nonneg (sub_nonneg.2 hax) hb)
  exact nonneg_of_mul_nonneg_right hsum (sub_pos.2 hab)

theorem nonpos_of_ends (hf : AffineBetween f a b) (hab : a < b) (ha : f a ≤ 0) (hb : f b ≤ 0)
    (hax : a ≤ x) (hxb : x ≤ b) : f x ≤ 0 := by
  have hneg : AffineBetween (fun y => -f y) a b := by
    intro y hay hyb
    linear_combination -(hf y hay hyb)
  have hnonneg := nonneg_of_ends hneg hab (neg_nonneg.2 ha) (neg_nonneg.2 hb) hax hxb
  exact neg_nonneg.1 hnonneg

end Segment

section Topology

variable [TopologicalSpace K] [OrderTopology K]

theorem ChangesSign.eq_zero (h : ChangesSign f x) (hf : ContinuousAt f x) : f x = 0 := by
  rcases lt_trichotomy (f x) 0 with hneg | hzero | hpos
  · obtain ⟨y, hy, hlt⟩ := (h.2.and_eventually (hf.eventually (gt_mem_nhds hneg))).exists
    exact absurd hlt hy.le.not_gt
  · exact hzero
  · obtain ⟨y, hy, hlt⟩ := (h.1.and_eventually (hf.eventually (lt_mem_nhds hpos))).exists
    exact absurd hlt hy.le.not_gt

variable [IsStrictOrderedRing K]

/-- Inside an affine segment the sign changes only between ends of opposite signs. -/
theorem ChangesSign.opposite (h : ChangesSign f x) (hf : AffineBetween f a b) (hax : a < x)
    (hxb : x < b) : Opposite (f a) (f b) := by
  have hab := hax.trans hxb
  have hinside := Ioo_mem_nhds hax hxb
  obtain ⟨y, hy, hay, hyb⟩ := (h.1.and_eventually hinside).exists
  obtain ⟨z, hz, haz, hzb⟩ := (h.2.and_eventually hinside).exists
  rcases lt_or_ge (f a) 0 with ha | ha
  · refine .inl ⟨ha, not_le.1 fun hb => ?_⟩
    exact absurd (nonpos_of_ends hf hab ha.le hb haz.le hzb.le) hz.not_ge
  · have hb : f b < 0 := by
      by_contra hb
      exact absurd (nonneg_of_ends hf hab ha (not_lt.1 hb) hay.le hyb.le) hy.not_ge
    refine .inr ⟨lt_of_le_of_ne ha fun ha0 => ?_, hb⟩
    exact absurd (nonpos_of_ends hf hab ha0.ge hb.le haz.le hzb.le) hz.not_ge

variable {s : K}

/-- Past the grid the sign changes only where the slope leads back to zero. -/
theorem ChangesSign.of_slopeFrom (h : ChangesSign f x) (hf : SlopeFrom f a s) (hax : a < x) :
    f a * s < 0 := by
  have hright := Ioi_mem_nhds hax
  obtain ⟨y, hy, hay⟩ := (h.1.and_eventually hright).exists
  obtain ⟨z, hz, haz⟩ := (h.2.and_eventually hright).exists
  have hay : a < y := hay
  have haz : a < z := haz
  rw [hf y hay.le] at hy
  rw [hf z haz.le] at hz
  rcases lt_trichotomy s 0 with hs | rfl | hs
  · have ha : 0 < f a := by nlinarith
    exact mul_neg_of_pos_of_neg ha hs
  · linarith
  · have ha : f a < 0 := by nlinarith
    exact mul_neg_of_neg_of_pos ha hs

/-- Where the slope leads back to zero there is such a place. -/
theorem exists_changesSign_of_slopeFrom [DenselyOrdered K] [NoMinOrder K] [NoMaxOrder K]
    (hf : SlopeFrom f a s) (h : f a * s < 0) : ∃ x, a < x ∧ ChangesSign f x := by
  have hs : s ≠ 0 := by
    rintro rfl
    rw [mul_zero] at h
    exact lt_irrefl 0 h
  have hdist : 0 < -(f a / s) := by
    have hquot : f a / s < 0 := by
      have := div_neg_of_neg_of_pos h (mul_self_pos.2 hs)
      rwa [mul_div_mul_right _ _ hs] at this
    linarith
  refine ⟨a - f a / s, by linarith, ?_⟩
  have hvalue : ∀ y, a < y → f y = s * (y - (a - f a / s)) := by
    intro y hy
    rw [hf y hy.le]
    field_simp
    ring
  have hright : ∀ᶠ y in nhds (a - f a / s), a < y := Ioi_mem_nhds (by linarith)
  have hbelow := (frequently_lt_nhds (a - f a / s)).and_eventually hright
  have habove := (frequently_gt_nhds (a - f a / s)).and_eventually hright
  rcases lt_or_gt_of_ne hs with hneg | hpos
  · constructor
    · refine habove.mono fun y hy => ?_
      rw [hvalue y hy.2]
      exact mul_neg_of_neg_of_pos hneg (sub_pos.2 hy.1)
    · refine hbelow.mono fun y hy => ?_
      rw [hvalue y hy.2]
      exact mul_pos_of_neg_of_neg hneg (sub_neg.2 hy.1)
  · constructor
    · refine hbelow.mono fun y hy => ?_
      rw [hvalue y hy.2]
      exact mul_neg_of_pos_of_neg hpos (sub_neg.2 hy.1)
    · refine habove.mono fun y hy => ?_
      rw [hvalue y hy.2]
      exact mul_pos hpos (sub_pos.2 hy.1)

end Topology

end PiecewiseLinear
