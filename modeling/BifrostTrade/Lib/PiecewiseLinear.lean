import Mathlib.Algebra.Order.Field.Basic
import Mathlib.Algebra.BigOperators.Group.List.Basic
import Mathlib.Order.Bounds.Basic
import Mathlib.Order.Interval.Set.Basic
import Mathlib.Data.Finset.Max
import Mathlib.Tactic.FieldSimp
import Mathlib.Tactic.Linarith
import Mathlib.Tactic.LinearCombination
import Mathlib.Tactic.Ring

/-!
# Piecewise linear functions with a known slope at infinity

`PiecewiseLinear f kinks s` says that `f` is affine on every interval whose interior meets none of
`kinks`, and that past the last of them it has slope `s`.  Such functions are closed under sums
and scaling, and the hinges `max (x - k) 0` and `max (k - x) 0` are among them.  On the half line
`0 ≤ x` the lower bound of `f` is attained at `0` or at a kink when `0 ≤ s` (`isLeast_of_slope`),
and there is none when `s < 0` (`not_bddBelow_of_slope`); upper bounds mirror this.
-/

namespace PiecewiseLinear

/-! ## Neighbours on a grid -/

section Grid

variable {K : Type*} [LinearOrder K]

theorem exists_last_le {grid : List K} {x : K} (h0 : ∃ g ∈ grid, g ≤ x) :
    ∃ a ∈ grid, a ≤ x ∧ ∀ g ∈ grid, g ≤ x → g ≤ a := by
  obtain ⟨g, hg, hgx⟩ := h0
  obtain ⟨a, ha, hmax⟩ := Finset.exists_max_image (grid.toFinset.filter (· ≤ x)) id
    ⟨g, by simp [hg, hgx]⟩
  simp only [Finset.mem_filter, List.mem_toFinset, id] at ha hmax
  exact ⟨a, ha.1, ha.2, fun c hc hcx => hmax c ⟨hc, hcx⟩⟩

theorem exists_first_ge {grid : List K} {x : K} (h0 : ∃ g ∈ grid, x ≤ g) :
    ∃ b ∈ grid, x ≤ b ∧ ∀ g ∈ grid, x ≤ g → b ≤ g := by
  obtain ⟨g, hg, hxg⟩ := h0
  obtain ⟨b, hb, hmin⟩ := Finset.exists_min_image (grid.toFinset.filter (x ≤ ·)) id
    ⟨g, by simp [hg, hxg]⟩
  simp only [Finset.mem_filter, List.mem_toFinset, id] at hb hmin
  exact ⟨b, hb.1, hb.2, fun c hc hxc => hmin c ⟨hc, hxc⟩⟩

theorem exists_ge_forall (x : K) (l : List K) : ∃ a, x ≤ a ∧ ∀ k ∈ l, k ≤ a := by
  obtain ⟨a, ha, hmax⟩ := Finset.exists_max_image (x :: l).toFinset id ⟨x, by simp⟩
  simp only [List.mem_toFinset, List.mem_cons, id] at ha hmax
  exact ⟨a, hmax x (Or.inl rfl), fun k hk => hmax k (Or.inr hk)⟩

end Grid

variable {K : Type*} [Field K] [LinearOrder K]

/-- On `[a, b]` the values of `f` lie on its chord. -/
def AffineBetween (f : K → K) (a b : K) : Prop :=
  ∀ x, a ≤ x → x ≤ b → (b - a) * f x = (b - x) * f a + (x - a) * f b

/-- From `a` on `f` has slope `s`. -/
def SlopeFrom (f : K → K) (a s : K) : Prop :=
  ∀ x, a ≤ x → f x = f a + s * (x - a)

end PiecewiseLinear

open PiecewiseLinear in
/-- `f` is affine off `kinks` and has slope `s` past all of them. -/
structure PiecewiseLinear {K : Type*} [Field K] [LinearOrder K] (f : K → K) (kinks : List K)
    (s : K) : Prop where
  between : ∀ a b, a ≤ b → (∀ k ∈ kinks, k ≤ a ∨ b ≤ k) → AffineBetween f a b
  tail : ∀ a, (∀ k ∈ kinks, k ≤ a) → SlopeFrom f a s

namespace PiecewiseLinear

variable {K : Type*} [Field K] [LinearOrder K] {f g : K → K} {kinks : List K} {s t : K}

/-! ## Closure properties -/

theorem affine (c m : K) (kinks : List K) : PiecewiseLinear (fun x => c + m * x) kinks m where
  between _ _ _ _ x _ _ := by ring
  tail _ _ x _ := by ring

theorem add (hf : PiecewiseLinear f kinks s) (hg : PiecewiseLinear g kinks t) :
    PiecewiseLinear (fun x => f x + g x) kinks (s + t) where
  between a b hab hk x hax hxb := by
    have h1 := hf.between a b hab hk x hax hxb
    have h2 := hg.between a b hab hk x hax hxb
    linear_combination h1 + h2
  tail a hk x hax := by
    have h1 := hf.tail a hk x hax
    have h2 := hg.tail a hk x hax
    linear_combination h1 + h2

theorem mul_const (hf : PiecewiseLinear f kinks s) (c : K) :
    PiecewiseLinear (fun x => f x * c) kinks (s * c) where
  between a b hab hk x hax hxb := by linear_combination c * hf.between a b hab hk x hax hxb
  tail a hk x hax := by linear_combination c * hf.tail a hk x hax

theorem neg (hf : PiecewiseLinear f kinks s) : PiecewiseLinear (fun x => -f x) kinks (-s) := by
  simpa using hf.mul_const (-1)

theorem sub_const (hf : PiecewiseLinear f kinks s) (c : K) :
    PiecewiseLinear (fun x => f x - c) kinks s := by
  have h := hf.add (affine (-c) 0 kinks)
  simpa [sub_eq_add_neg] using h

theorem mono (hf : PiecewiseLinear f kinks s) {kinks' : List K} (h : kinks ⊆ kinks') :
    PiecewiseLinear f kinks' s where
  between a b hab hk := hf.between a b hab fun k hm => hk k (h hm)
  tail a hk := hf.tail a fun k hm => hk k (h hm)

theorem sum_map {ι : Type*} (F : ι → K → K) (slope : ι → K) :
    ∀ l : List ι, (∀ i ∈ l, PiecewiseLinear (F i) kinks (slope i)) →
      PiecewiseLinear (fun x => (l.map fun i => F i x).sum) kinks (l.map slope).sum
  | [], _ => by simpa using affine (0 : K) 0 kinks
  | i :: l, h => by
      have hi := h i (List.mem_cons_self ..)
      have hl := sum_map F slope l fun j hj => h j (List.mem_cons_of_mem _ hj)
      simpa only [List.map_cons, List.sum_cons] using hi.add hl

variable [IsStrictOrderedRing K]

/-- The pay-off shape of a call: zero up to `k`, then slope one. -/
theorem hinge_above (k : K) : PiecewiseLinear (fun x => max (x - k) 0) [k] 1 where
  between a b hab hk x hax hxb := by
    dsimp only
    rcases hk k (List.mem_singleton_self k) with h | h
    · rw [max_eq_left (by linarith), max_eq_left (by linarith), max_eq_left (by linarith)]
      ring
    · rw [max_eq_right (by linarith), max_eq_right (by linarith), max_eq_right (by linarith)]
      ring
  tail a hk x hax := by
    dsimp only
    have h := hk k (List.mem_singleton_self k)
    rw [max_eq_left (by linarith), max_eq_left (by linarith)]
    ring

/-- The pay-off shape of a put: slope minus one up to `k`, then zero. -/
theorem hinge_below (k : K) : PiecewiseLinear (fun x => max (k - x) 0) [k] 0 where
  between a b hab hk x hax hxb := by
    dsimp only
    rcases hk k (List.mem_singleton_self k) with h | h
    · rw [max_eq_right (by linarith), max_eq_right (by linarith), max_eq_right (by linarith)]
      ring
    · rw [max_eq_left (by linarith), max_eq_left (by linarith), max_eq_left (by linarith)]
      ring
  tail a hk x hax := by
    dsimp only
    have h := hk k (List.mem_singleton_self k)
    rw [max_eq_right (by linarith), max_eq_right (by linarith)]
    ring

/-! ## Extremes on the half line -/

theorem min_le_of_affineBetween {a b x : K} (hf : AffineBetween f a b) (hax : a ≤ x)
    (hxb : x ≤ b) : min (f a) (f b) ≤ f x := by
  rcases eq_or_lt_of_le (hax.trans hxb) with hab | hab
  · obtain rfl : x = a := le_antisymm (hxb.trans hab.ge) hax
    exact min_le_left _ _
  · have h1 : (b - x) * min (f a) (f b) ≤ (b - x) * f a :=
      mul_le_mul_of_nonneg_left (min_le_left _ _) (sub_nonneg.2 hxb)
    have h2 : (x - a) * min (f a) (f b) ≤ (x - a) * f b :=
      mul_le_mul_of_nonneg_left (min_le_right _ _) (sub_nonneg.2 hax)
    have h3 : (b - a) * min (f a) (f b) ≤ (b - a) * f x := by
      rw [hf x hax hxb]
      linarith
    exact le_of_mul_le_mul_left h3 (sub_pos.2 hab)

/-- With a slope `0 ≤ s` at infinity every value on the half line is at least one on the grid. -/
theorem exists_grid_le (hf : PiecewiseLinear f kinks s) (hs : 0 ≤ s) {grid : List K}
    (h0 : 0 ∈ grid) (hk : kinks ⊆ grid) {x : K} (hx : 0 ≤ x) : ∃ g ∈ grid, f g ≤ f x := by
  obtain ⟨a, ha, hax, hamax⟩ := exists_last_le ⟨0, h0, hx⟩
  by_cases hb : ∃ g ∈ grid, x ≤ g
  · obtain ⟨b, hb, hxb, hbmin⟩ := exists_first_ge hb
    have hpiece : AffineBetween f a b := by
      refine hf.between a b (hax.trans hxb) fun k hkm => ?_
      rcases le_total k x with h | h
      exacts [Or.inl (hamax k (hk hkm) h), Or.inr (hbmin k (hk hkm) h)]
    rcases min_le_iff.1 (min_le_of_affineBetween hpiece hax hxb) with h | h
    exacts [⟨a, ha, h⟩, ⟨b, hb, h⟩]
  · push Not at hb
    refine ⟨a, ha, ?_⟩
    rw [hf.tail a (fun k hkm => hamax k (hk hkm) (hb k (hk hkm)).le) x hax]
    have := mul_nonneg hs (sub_nonneg.2 hax)
    linarith

/-- The least value on the half line is the least value on a grid of `0` and the kinks. -/
theorem isLeast_of_slope (hf : PiecewiseLinear f kinks s) (hs : 0 ≤ s) {grid : List K}
    (h0 : 0 ∈ grid) (hk : kinks ⊆ grid) (hpos : ∀ g ∈ grid, 0 ≤ g) {m : K}
    (hm : ∃ g ∈ grid, f g = m) (hle : ∀ g ∈ grid, m ≤ f g) :
    IsLeast (f '' Set.Ici 0) m := by
  obtain ⟨g, hg, rfl⟩ := hm
  refine ⟨⟨g, hpos g hg, rfl⟩, ?_⟩
  rintro _ ⟨x, hx, rfl⟩
  obtain ⟨g', hg', h⟩ := hf.exists_grid_le hs h0 hk hx
  exact (hle g' hg').trans h

/-- A negative slope at infinity leaves no lower bound. -/
theorem not_bddBelow_of_slope (hf : PiecewiseLinear f kinks s) (hs : s < 0) :
    ¬ BddBelow (f '' Set.Ici 0) := by
  rintro ⟨m, hm⟩
  obtain ⟨a, ha, hk⟩ := exists_ge_forall 0 kinks
  have hfm : m ≤ f a := hm ⟨a, ha, rfl⟩
  have hd : 0 ≤ (f a - m + 1) / (-s) := div_nonneg (by linarith) (by linarith)
  have hx : m ≤ f (a + (f a - m + 1) / (-s)) := hm ⟨_, add_nonneg ha hd, rfl⟩
  rw [hf.tail a hk _ (le_add_of_nonneg_right hd)] at hx
  have he : s * (a + (f a - m + 1) / (-s) - a) = -(f a - m + 1) := by
    have hs0 : s ≠ 0 := hs.ne
    field_simp
    ring
  linarith

/-- The greatest value on the half line is the greatest value on a grid of `0` and the kinks. -/
theorem isGreatest_of_slope (hf : PiecewiseLinear f kinks s) (hs : s ≤ 0) {grid : List K}
    (h0 : 0 ∈ grid) (hk : kinks ⊆ grid) (hpos : ∀ g ∈ grid, 0 ≤ g) {m : K}
    (hm : ∃ g ∈ grid, f g = m) (hle : ∀ g ∈ grid, f g ≤ m) :
    IsGreatest (f '' Set.Ici 0) m := by
  obtain ⟨g, hg, rfl⟩ := hm
  have hleast := hf.neg.isLeast_of_slope (neg_nonneg.2 hs) h0 hk hpos ⟨g, hg, rfl⟩
    fun c hc => neg_le_neg (hle c hc)
  refine ⟨⟨g, hpos g hg, rfl⟩, ?_⟩
  rintro _ ⟨x, hx, rfl⟩
  exact neg_le_neg_iff.1 (hleast.2 ⟨x, hx, rfl⟩)

/-- A positive slope at infinity leaves no upper bound. -/
theorem not_bddAbove_of_slope (hf : PiecewiseLinear f kinks s) (hs : 0 < s) :
    ¬ BddAbove (f '' Set.Ici 0) := by
  rintro ⟨m, hm⟩
  refine hf.neg.not_bddBelow_of_slope (neg_lt_zero.2 hs) ⟨-m, ?_⟩
  rintro _ ⟨x, hx, rfl⟩
  exact neg_le_neg (hm ⟨x, hx, rfl⟩)

end PiecewiseLinear
