import Mathlib.Algebra.Order.Group.Defs
import Mathlib.Algebra.Order.Sub.Defs
import Mathlib.Order.Bounds.Image

/-!
# Drawdowns

The largest fall of a curve from one of its points to a later one, and the loop that finds it in one
walk with the highest point so far and the largest fall so far (`PeakAndFall.foldl`).
-/

namespace Drawdown

variable {α : Type*} [AddCommGroup α]

/-- The falls of a curve: a value less a later one, or less itself. -/
def falls (curve : List α) : Set α :=
  {d | ∃ (i j : ℕ) (x y : α), i ≤ j ∧ curve[i]? = some x ∧ curve[j]? = some y ∧ d = x - y}

theorem zero_mem_falls {curve : List α} {x : α} (hx : x ∈ curve) : 0 ∈ falls curve := by
  obtain ⟨i, hi⟩ := List.getElem?_of_mem hx
  exact ⟨i, i, x, x, le_rfl, hi, hi, (sub_self x).symm⟩

/-- With a new point come the falls to it. -/
theorem falls_concat (curve : List α) (v : α) :
    falls (curve ++ [v]) = falls curve ∪ (fun x => x - v) '' {x | x ∈ curve ++ [v]} := by
  ext d
  constructor
  · rintro ⟨i, j, x, y, hij, hi, hj, rfl⟩
    by_cases hlast : j < curve.length
    · rw [List.getElem?_append_left (by omega)] at hi
      rw [List.getElem?_append_left hlast] at hj
      exact Or.inl ⟨i, j, x, y, hij, hi, hj, rfl⟩
    · obtain ⟨hlt, -⟩ := List.getElem?_eq_some_iff.1 hj
      have hend : j = curve.length := by
        rw [List.length_append, List.length_singleton] at hlt
        omega
      rw [hend, List.getElem?_concat_length] at hj
      rw [← Option.some.inj hj]
      exact Or.inr ⟨x, List.mem_of_getElem? hi, rfl⟩
  · rintro (⟨i, j, x, y, hij, hi, hj, rfl⟩ | ⟨x, hx, rfl⟩)
    · have hlt := (List.getElem?_eq_some_iff.1 hj).1
      refine ⟨i, j, x, y, hij, ?_, ?_, rfl⟩
      · rw [List.getElem?_append_left (by omega), hi]
      · rw [List.getElem?_append_left hlt, hj]
    · obtain ⟨i, hi⟩ := List.getElem?_of_mem hx
      have hlt := (List.getElem?_eq_some_iff.1 hi).1
      rw [List.length_append, List.length_singleton] at hlt
      exact ⟨i, curve.length, x, v, by omega, hi, List.getElem?_concat_length, rfl⟩

variable [LinearOrder α]

/-- One step of the loop: the highest point and the largest fall so far. -/
def step (st : α × α) (v : α) : α × α :=
  (max st.1 v, max st.2 (max st.1 v - v))

/-- The highest point of a curve and its largest fall. -/
structure PeakAndFall (curve : List α) (st : α × α) : Prop where
  peak : IsGreatest {x | x ∈ curve} st.1
  fall : IsGreatest (falls curve) st.2

theorem PeakAndFall.singleton (x : α) : PeakAndFall [x] (x, 0) where
  peak := ⟨List.mem_singleton_self x, fun _ hy => (List.mem_singleton.1 hy).le⟩
  fall := by
    refine ⟨zero_mem_falls (List.mem_singleton_self x), ?_⟩
    rintro d ⟨i, j, a, b, -, hi, hj, rfl⟩
    rw [List.mem_singleton.1 (List.mem_of_getElem? hi),
      List.mem_singleton.1 (List.mem_of_getElem? hj), sub_self]

variable [IsOrderedAddMonoid α]

theorem PeakAndFall.step {curve : List α} {st : α × α} (h : PeakAndFall curve st) (v : α) :
    PeakAndFall (curve ++ [v]) (step st v) := by
  have hpeak : IsGreatest {x | x ∈ curve ++ [v]} (max st.1 v) := by
    have hmem : {x | x ∈ curve ++ [v]} = {x | x ∈ curve} ∪ {v} := by
      ext x
      simp [or_comm]
    rw [hmem]
    exact h.peak.union isGreatest_singleton
  refine ⟨hpeak, ?_⟩
  rw [falls_concat]
  have hmono : Monotone fun x : α => x - v := fun _ _ hxy => sub_le_sub_right hxy v
  exact h.fall.union (hmono.map_isGreatest hpeak)

/-- After the loop: the invariant of the prefix, carried to the whole curve. -/
theorem PeakAndFall.foldl {curve : List α} {st : α × α} (h : PeakAndFall curve st)
    (vs : List α) : PeakAndFall (curve ++ vs) (vs.foldl Drawdown.step st) := by
  induction vs generalizing curve st with
  | nil => rwa [List.append_nil]
  | cons v vs ih =>
    rw [List.append_cons, List.foldl_cons]
    exact ih (h.step v)

end Drawdown
