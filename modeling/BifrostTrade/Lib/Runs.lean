import Mathlib.Data.List.Induction

/-!
# Runs

A machine that takes one event after another, conditions on the steps of a run, and the induction
that carries an invariant along a run whose steps meet a condition.
-/

namespace Runs

variable {σ ε : Type*} {step : σ → ε → σ} {s : σ} {evs : List ε}

/-- The state after the events. -/
def run (step : σ → ε → σ) (s : σ) (evs : List ε) : σ := evs.foldl step s

@[simp] theorem run_nil : run step s [] = s := rfl

@[simp] theorem run_snoc (e : ε) : run step s (evs ++ [e]) = step (run step s evs) e := by
  simp [run]

/-- Every step of the run meets a condition on the events before it, the state before it and its
own event. -/
def Along (step : σ → ε → σ) (s : σ) (P : List ε → σ → ε → Prop) (evs : List ε) : Prop :=
  ∀ pre e post, evs = pre ++ e :: post → P pre (run step s pre) e

theorem along_nil {P : List ε → σ → ε → Prop} : Along step s P [] := by
  intro pre e post h
  simp at h

theorem along_snoc {P : List ε → σ → ε → Prop} (evs : List ε) (e : ε) :
    Along step s P (evs ++ [e]) ↔ Along step s P evs ∧ P evs (run step s evs) e := by
  constructor
  · intro h
    refine ⟨fun pre e' post heq => h pre e' (post ++ [e]) (by simp [heq]), h evs e [] rfl⟩
  · rintro ⟨h, hlast⟩ pre e' post heq
    -- the step asked about is the last one or one of the run before
    rcases List.eq_nil_or_concat post with rfl | ⟨post, e'', rfl⟩
    · obtain ⟨rfl, he⟩ := List.append_inj' heq rfl
      obtain rfl : e = e' := by simpa using he
      exact hlast
    · have heq' : evs ++ [e] = (pre ++ e' :: post) ++ [e''] := by simpa using heq
      exact h pre e' post (List.append_inj' heq' rfl).1

theorem along_cons {P : List ε → σ → ε → Prop} {e : ε} :
    Along step s P (e :: evs) ↔ P [] s e ∧ Along step (step s e) (fun pre => P (e :: pre)) evs := by
  constructor
  · intro h
    exact ⟨h [] e evs rfl, fun pre e' post heq => h (e :: pre) e' post (by rw [heq]; rfl)⟩
  · rintro ⟨hfirst, h⟩ pre e' post heq
    cases pre with
    | nil =>
      obtain ⟨rfl, -⟩ := List.cons.inj heq
      exact hfirst
    | cons e'' pre =>
      obtain ⟨rfl, hevs⟩ := List.cons.inj heq
      exact h pre e' post hevs

instance decidableAlong : (evs : List ε) → (s : σ) → (P : List ε → σ → ε → Prop) →
    [∀ pre s e, Decidable (P pre s e)] → Decidable (Along step s P evs)
  | [], _, _, _ => isTrue along_nil
  | e :: evs, s, P, _ =>
      haveI := decidableAlong evs (step s e) fun pre => P (e :: pre)
      decidable_of_iff _ along_cons.symm

/-- What holds at the start and is kept by every step that meets the condition holds after a run
whose steps all meet it. -/
theorem invariant {P : List ε → σ → ε → Prop} (Inv : List ε → σ → Prop) (init : Inv [] s)
    (keep : ∀ pre e, P pre (run step s pre) e → Inv pre (run step s pre) →
      Inv (pre ++ [e]) (step (run step s pre) e))
    (h : Along step s P evs) : Inv evs (run step s evs) := by
  induction evs using List.reverseRecOn with
  | nil => exact init
  | append_singleton evs e ih =>
    obtain ⟨h, hlast⟩ := (along_snoc evs e).1 h
    rw [run_snoc]
    exact keep evs e hlast (ih h)

theorem Along.imp {P Q : List ε → σ → ε → Prop} (himp : ∀ pre s e, P pre s e → Q pre s e)
    (h : Along step s P evs) : Along step s Q evs :=
  fun pre e post heq => himp pre _ e (h pre e post heq)

/-- A run's prefix meets what the run meets. -/
theorem Along.of_append {P : List ε → σ → ε → Prop} {post : List ε}
    (h : Along step s P (evs ++ post)) : Along step s P evs :=
  fun pre e rest heq => h pre e (rest ++ post) (by simp [heq])

/-- Where the invariant gives a property of every step, the whole run has it. -/
theorem along_of_invariant {P Q : List ε → σ → ε → Prop} (Inv : List ε → σ → Prop)
    (init : Inv [] s)
    (keep : ∀ pre e, P pre (run step s pre) e → Inv pre (run step s pre) →
      Inv (pre ++ [e]) (step (run step s pre) e))
    (good : ∀ pre e, Inv pre (run step s pre) → Q pre (run step s pre) e)
    (h : Along step s P evs) : Along step s Q evs := by
  rintro pre e post rfl
  exact good pre e (invariant Inv init keep h.of_append)

end Runs
