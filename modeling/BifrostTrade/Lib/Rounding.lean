import BifrostTrade.Lib.Numerals
import Mathlib

/-!
# Rounding to decimal places

Rounding to the nearest multiple of a power of ten, the even one at a half, over any ordered field
with a floor.  It keeps the order, and sums and differences of rounded numbers are rounded already.
-/

namespace Rounding

open scoped Numerals

variable {F : Type*} [Field F]

/-- A number of `n` places. -/
def IsPlaces (n : ℕ) (x : F) : Prop := ∃ k : ℤ, x = k / 10 ^ n

theorem IsPlaces.zero (n : ℕ) : IsPlaces n (0 : F) := ⟨0, by rw [Int.cast_zero, zero_div]⟩

theorem IsPlaces.add {n : ℕ} {x y : F} (hx : IsPlaces n x) (hy : IsPlaces n y) :
    IsPlaces n (x + y) := by
  obtain ⟨a, rfl⟩ := hx
  obtain ⟨b, rfl⟩ := hy
  exact ⟨a + b, by rw [Int.cast_add, add_div]⟩

theorem IsPlaces.sub {n : ℕ} {x y : F} (hx : IsPlaces n x) (hy : IsPlaces n y) :
    IsPlaces n (x - y) := by
  obtain ⟨a, rfl⟩ := hx
  obtain ⟨b, rfl⟩ := hy
  exact ⟨a - b, by rw [Int.cast_sub, sub_div]⟩

theorem IsPlaces.sum {n : ℕ} {l : List F} (h : ∀ x ∈ l, IsPlaces n x) : IsPlaces n l.sum := by
  induction l with
  | nil => exact .zero n
  | cons x l ih =>
    rw [List.sum_cons]
    exact (h x List.mem_cons_self).add (ih fun y hy => h y (List.mem_cons_of_mem _ hy))

variable [LinearOrder F] [FloorRing F]

/-- The nearest integer, the even one at a half. -/
def halfEven (x : F) : ℤ :=
  let k := ⌊x⌋
  if x - k < 1 / 2 then k else if 1 / 2 < x - k then k + 1 else k + k % 2

/-- Rounded to `n` places. -/
def places (n : ℕ) (x : F) : F := halfEven (x * 10 ^ n) / 10 ^ n

theorem isPlaces_places (n : ℕ) (x : F) : IsPlaces n (places n x) := ⟨_, rfl⟩

variable [IsStrictOrderedRing F]

theorem halfEven_intCast (k : ℤ) : halfEven (k : F) = k := by
  simp [halfEven]

theorem abs_sub_halfEven_le (x : F) : |x - halfEven x| ≤ 1 / 2 := by
  have hfloor := Int.floor_le x
  have hlt := Int.lt_floor_add_one x
  unfold halfEven
  dsimp only
  rw [abs_le]
  split_ifs with hlow hhigh
  · constructor <;> linarith
  · push_cast
    constructor <;> linarith
  · have hhalf : x - ⌊x⌋ = 1 / 2 := le_antisymm (not_lt.1 hhigh) (not_lt.1 hlow)
    rcases Int.emod_two_eq_zero_or_one ⌊x⌋ with hmod | hmod <;> rw [hmod] <;> push_cast <;>
      constructor <;> linarith

theorem halfEven_mono : Monotone (halfEven (F := F)) := by
  intro x y hxy
  by_contra hnot
  -- the roundings are an integer apart, each within a half of its number: the numbers are equal
  have hstep : halfEven y + 1 ≤ halfEven x := Int.add_one_le_iff.2 (not_le.1 hnot)
  have hstep' : (halfEven y : F) + 1 ≤ halfEven x := by exact_mod_cast hstep
  have hx := abs_le.1 (abs_sub_halfEven_le x)
  have hy := abs_le.1 (abs_sub_halfEven_le y)
  have heq : x = y := by linarith
  exact hnot (heq ▸ le_rfl)

theorem places_mono (n : ℕ) : Monotone (places (F := F) n) := by
  intro x y hxy
  have hpos : (0 : F) < 10 ^ n := pow_pos (by norm_num) n
  have hscaled : x * 10 ^ n ≤ y * 10 ^ n := mul_le_mul_of_nonneg_right hxy hpos.le
  exact div_le_div_of_nonneg_right (Int.cast_le.2 (halfEven_mono hscaled)) hpos.le

theorem IsPlaces.places_eq {n : ℕ} {x : F} (h : IsPlaces n x) : places n x = x := by
  obtain ⟨k, rfl⟩ := h
  have hpos : (0 : F) < 10 ^ n := pow_pos (by norm_num) n
  rw [places, div_mul_cancel₀ _ hpos.ne', halfEven_intCast]

end Rounding
