import BifrostTrade.Lib.Conversions
import Mathlib.Data.List.Forall2

/-!
# Refusals and other exceptions

A check answers a value, refuses with a reason, or lets another exception of a conversion through.
It is clean where it does not do the last.  Clean checks compose (`clean_bind_iff`), also over the
items of a list up to the first that fails (`clean_mapM_iff`).
-/

namespace Py

/-- How a check fails: it refuses with its reason, or a conversion raises. -/
inductive Failure where
  | refused (reason : String)
  | raised (e : Raised)
  deriving DecidableEq

/-- What a conversion raises goes through. -/
def unguarded {α : Type} : Except Raised α → Except Failure α
  | .ok a => .ok a
  | .error e => .error (.raised e)

/-- What a conversion raises is refused with this reason. -/
def guarded {α : Type} (reason : String) : Except Raised α → Except Failure α
  | .ok a => .ok a
  | .error _ => .error (.refused reason)

/-- No other exception is raised. -/
def Clean {α : Type} (r : Except Failure α) : Prop := ∀ e, r ≠ .error (.raised e)

/-- A value is answered. -/
def Passes {α : Type} (r : Except Failure α) : Prop := ∃ a, r = .ok a

section Clean

variable {α β : Type}

@[simp] theorem clean_ok (a : α) : Clean (.ok a) := fun _ h => by cases h

@[simp] theorem clean_refused (reason : String) : Clean (.error (.refused reason) : Except _ α) :=
  fun _ h => by cases h

@[simp] theorem not_clean_raised (e : Raised) : ¬ Clean (.error (.raised e) : Except _ α) :=
  fun h => h e rfl

@[simp] theorem passes_ok (a : α) : Passes (.ok a) := ⟨a, rfl⟩

@[simp] theorem not_passes_error (e : Failure) : ¬ Passes (.error e : Except _ α) := by
  rintro ⟨a, h⟩
  cases h

/-- An unguarded conversion is clean where it does not raise. -/
@[simp] theorem clean_unguarded_iff {r : Except Raised α} :
    Clean (unguarded r) ↔ ∃ a, r = .ok a := by
  cases r <;> simp [unguarded]

@[simp] theorem unguarded_eq_ok_iff {r : Except Raised α} {a : α} :
    unguarded r = .ok a ↔ r = .ok a := by
  cases r <;> simp [unguarded]

@[simp] theorem guarded_eq_ok_iff {reason : String} {r : Except Raised α} {a : α} :
    guarded reason r = .ok a ↔ r = .ok a := by
  cases r <;> simp [guarded]

/-- Two steps are clean when the first is, and the second where the first passes. -/
theorem clean_bind_iff {x : Except Failure α} {f : α → Except Failure β} :
    Clean (x >>= f) ↔ Clean x ∧ ∀ a, x = .ok a → Clean (f a) := by
  cases x with
  | ok a => simp [bind, Except.bind]
  | error e => cases e <;> simp [bind, Except.bind]

theorem bind_ok_iff {ε : Type} {x : Except ε α} {f : α → Except ε β} {b : β} :
    x >>= f = .ok b ↔ ∃ a, x = .ok a ∧ f a = .ok b := by
  cases x <;> simp [bind, Except.bind]

theorem map_ok_iff {ε : Type} {r : Except ε α} {f : α → β} {b : β} :
    r.map f = .ok b ↔ ∃ a, r = .ok a ∧ f a = b := by
  cases r <;> simp [Except.map]

theorem exists_map_ok_iff {ε : Type} {r : Except ε α} {f : α → β} :
    (∃ b, r.map f = .ok b) ↔ ∃ a, r = .ok a := by
  cases r <;> simp [Except.map]

/-- A refusal under a condition. -/
theorem clean_if_refused_iff {p : Prop} [Decidable p] {reason : String} {r : Except Failure α} :
    Clean (if p then .error (.refused reason) else r) ↔ (¬ p → Clean r) := by
  by_cases hp : p <;> simp [hp]

theorem if_refused_eq_ok_iff {p : Prop} [Decidable p] {reason : String} {r : Except Failure α}
    {a : α} : (if p then .error (.refused reason) else r) = .ok a ↔ ¬ p ∧ r = .ok a := by
  by_cases hp : p <;> simp [hp]

/-! ## Lists -/

/-- Every item that is reached is checked cleanly. -/
def CleanRun (f : α → Except Failure β) : List α → Prop
  | [] => True
  | x :: xs => Clean (f x) ∧ (Passes (f x) → CleanRun f xs)

theorem clean_mapM_iff {f : α → Except Failure β} {xs : List α} :
    Clean (xs.mapM f) ↔ CleanRun f xs := by
  induction xs with
  | nil => simp [CleanRun, pure, Except.pure]
  | cons x xs ih =>
    rw [List.mapM_cons, clean_bind_iff, CleanRun]
    refine and_congr_right fun _ => ?_
    have htail : ∀ y, Clean (xs.mapM f >>= fun ys => pure (y :: ys)) ↔ CleanRun f xs := by
      intro y
      rw [clean_bind_iff, ih]
      exact ⟨fun h => h.1, fun h => ⟨h, fun ys _ => clean_ok (y :: ys)⟩⟩
    constructor
    · rintro h ⟨y, hy⟩
      exact (htail y).1 (h y hy)
    · exact fun h y hy => (htail y).2 (h ⟨y, hy⟩)

/-- A list passes item by item. -/
theorem mapM_ok_iff {ε : Type} {f : α → Except ε β} {xs : List α} {ys : List β} :
    xs.mapM f = .ok ys ↔ List.Forall₂ (fun x y => f x = .ok y) xs ys := by
  induction xs generalizing ys with
  | nil =>
    rw [List.mapM_nil, List.forall₂_nil_left_iff]
    exact ⟨fun h => (Except.ok.inj h).symm, fun h => by rw [h]; rfl⟩
  | cons x xs ih =>
    rw [List.mapM_cons, bind_ok_iff]
    constructor
    · rintro ⟨y, hy, h⟩
      obtain ⟨ys, hys, heq⟩ := bind_ok_iff.1 h
      obtain rfl := Except.ok.inj heq
      exact .cons hy (ih.1 hys)
    · intro h
      cases h with
      | @cons _ y _ ys hy hys => exact ⟨y, hy, bind_ok_iff.2 ⟨ys, ih.2 hys, rfl⟩⟩

theorem mapM_ok {ε : Type} {f : α → Except ε β} {g : α → β} {xs : List α}
    (h : ∀ x ∈ xs, f x = .ok (g x)) : xs.mapM f = .ok (xs.map g) :=
  mapM_ok_iff.2 (List.forall₂_map_right_iff.2 (List.forall₂_same.2 h))

/-- Items are numbered in their order. -/
theorem zipIdx_pairwise (xs : List α) : xs.zipIdx.Pairwise fun x y => x.2 < y.2 := by
  rw [← List.pairwise_map (f := Prod.snd) (R := (· < ·)), List.zipIdx_map_snd]
  exact List.pairwise_lt_range'

/-- A list converts item by item. -/
theorem mapM_eq_some_iff {f : α → Option β} {xs : List α} {ys : List β} :
    xs.mapM f = some ys ↔ List.Forall₂ (fun x y => f x = some y) xs ys := by
  induction xs generalizing ys with
  | nil =>
    rw [List.mapM_nil, List.forall₂_nil_left_iff]
    exact ⟨fun h => (Option.some.inj h).symm, fun h => by rw [h]; rfl⟩
  | cons x xs ih =>
    simp only [List.mapM_cons, Option.bind_eq_bind, Option.bind_eq_some_iff, Option.pure_def,
      Option.some.injEq]
    constructor
    · rintro ⟨y, hy, ys, hys, rfl⟩
      exact .cons hy (ih.1 hys)
    · intro h
      cases h with
      | @cons _ y _ ys hy hys => exact ⟨y, hy, ys, ih.2 hys, rfl⟩

theorem exists_left_of_forall₂ {R : α → β → Prop} {xs : List α} {ys : List β}
    (h : List.Forall₂ R xs ys) : ∀ y ∈ ys, ∃ x ∈ xs, R x y := by
  induction h with
  | nil => simp
  | cons hxy _ ih =>
    simp only [List.mem_cons, forall_eq_or_imp, exists_eq_or_imp]
    exact ⟨Or.inl hxy, fun y hy => Or.inr (ih y hy)⟩

theorem exists_right_of_forall₂ {R : α → β → Prop} {xs : List α} {ys : List β}
    (h : List.Forall₂ R xs ys) : ∀ x ∈ xs, ∃ y ∈ ys, R x y :=
  exists_left_of_forall₂ (List.Forall₂.flip h)

/-- A list passes where each of its items does. -/
theorem passes_mapM_iff {f : α → Except Failure β} {xs : List α} :
    Passes (xs.mapM f) ↔ ∀ x ∈ xs, Passes (f x) := by
  unfold Passes
  simp only [mapM_ok_iff]
  induction xs with
  | nil => simp
  | cons x xs ih =>
    simp only [List.mem_cons, forall_eq_or_imp, ← ih]
    constructor
    · rintro ⟨_, h⟩
      cases h with
      | cons hy hys => exact ⟨⟨_, hy⟩, _, hys⟩
    · rintro ⟨⟨y, hy⟩, ys, hys⟩
      exact ⟨y :: ys, .cons hy hys⟩

end Clean

end Py
