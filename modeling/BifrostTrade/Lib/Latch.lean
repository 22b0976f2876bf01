import Mathlib.Data.List.Induction

/-!
# A value that is set once until it is cleared

A cell takes the first value that it is sent, and keeps it until it is cleared.  What it holds at
the end is the first value since it was last cleared (`after_eq_some_iff`).
-/

namespace Latch

variable {α : Type*}

/-- What a latch is told. -/
inductive Signal (α : Type*) where
  | set (a : α)
  | clear
  deriving DecidableEq

/-- `COALESCE(cell, a)`, or `NULL`. -/
def next : Option α → Signal α → Option α
  | cell, .set a => some (cell.getD a)
  | _, .clear => none

/-- The cell after the signals. -/
def after (cell : Option α) (signals : List (Signal α)) : Option α := signals.foldl next cell

/-- The value is the first since the last clearing. -/
def FirstSince (signals : List (Signal α)) (a : α) : Prop :=
  ∃ pre post, signals = pre ++ .set a :: post ∧ .clear ∉ post ∧
    (pre = [] ∨ pre.getLast? = some .clear)

theorem after_snoc (cell : Option α) (signals : List (Signal α)) (s : Signal α) :
    after cell (signals ++ [s]) = next (after cell signals) s := by
  rw [after, List.foldl_append]
  rfl

/-- A cell that is not empty was set before. -/
theorem after_eq_after_none (cell : Option α) (signals : List (Signal α)) :
    after cell signals = after none (cell.toList.map .set ++ signals) := by
  cases cell with
  | none => rfl
  | some a => rfl

theorem after_eq_none_iff {signals : List (Signal α)} :
    after none signals = none ↔ signals = [] ∨ signals.getLast? = some .clear := by
  rcases List.eq_nil_or_concat signals with rfl | ⟨signals, s, rfl⟩
  · exact iff_of_true rfl (.inl rfl)
  · rw [List.concat_eq_append, after_snoc, List.getLast?_concat]
    cases s with
    | set a => simp [next]
    | clear => simp [next]

theorem firstSince_snoc {signals : List (Signal α)} {s : Signal α} {a : α} :
    FirstSince (signals ++ [s]) a ↔
      (s ≠ .clear ∧ FirstSince signals a) ∨ (s = .set a ∧ after none signals = none) := by
  rw [after_eq_none_iff]
  constructor
  · rintro ⟨pre, post, heq, hpost, hpre⟩
    rcases List.eq_nil_or_concat post with rfl | ⟨post, s', rfl⟩
    · obtain ⟨rfl, hs⟩ := List.append_inj' heq rfl
      exact .inr ⟨List.singleton_inj.1 hs, hpre⟩
    · rw [List.concat_eq_append] at heq hpost
      have heq' : signals ++ [s] = (pre ++ .set a :: post) ++ [s'] := by
        rw [heq, List.append_assoc, List.cons_append]
      obtain ⟨rfl, hs⟩ := List.append_inj' heq' rfl
      obtain rfl := List.singleton_inj.1 hs
      refine .inl ⟨fun hclear => hpost (by simp [hclear]), pre, post, rfl, fun h => hpost ?_, hpre⟩
      exact List.mem_append_left _ h
  · rintro (⟨hs, pre, post, rfl, hpost, hpre⟩ | ⟨rfl, hpre⟩)
    · refine ⟨pre, post ++ [s], by simp, ?_, hpre⟩
      intro h
      rcases List.mem_append.1 h with h | h
      · exact hpost h
      · exact hs (List.mem_singleton.1 h).symm
    · exact ⟨signals, [], rfl, List.not_mem_nil, hpre⟩

/-- **The cell holds the first value since it was last cleared.** -/
theorem after_eq_some_iff {signals : List (Signal α)} {a : α} :
    after none signals = some a ↔ FirstSince signals a := by
  induction signals using List.reverseRecOn with
  | nil =>
    refine iff_of_false nofun ?_
    rintro ⟨pre, post, heq, -⟩
    simp at heq
  | append_singleton signals s ih =>
    rw [after_snoc, firstSince_snoc, ← ih]
    cases s with
    | clear => simp [next]
    | set b =>
      cases hcell : after none signals with
      | none => simp [next]
      | some c => simp [next]

end Latch
