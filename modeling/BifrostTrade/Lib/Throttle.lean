import BifrostTrade.Lib.Dict
import Mathlib.Algebra.Order.Group.Defs

/-!
# Throttles

A throttle keeps for each key the time it let the key pass last, and lets it pass again once a gap
has gone by.  What passes under one key is then that far apart (`Ok.admit`), and a key that is held
back passed less than the gap ago (`Ok.exists_recent`).
-/

namespace Throttle

open Dict (setItem lookup_setItem)

variable {κ T : Type*} [DecidableEq κ] [AddCommGroup T] [LinearOrder T]

/-- The key has waited, since it passed last or since the start. -/
def Admits (gap start : T) (stamps : List (κ × T)) (k : κ) (now : T) : Prop :=
  ¬ now - (stamps.lookup k).getD start < gap

instance (gap start : T) (stamps : List (κ × T)) (k : κ) (now : T) :
    Decidable (Admits gap start stamps k now) := inferInstanceAs (Decidable (¬ _))

/-- The stamps are the last times of what was admitted, which is spaced. -/
structure Ok (gap : T) (stamps admitted : List (κ × T)) : Prop where
  fresh : ∀ k, stamps.lookup k = none → ∀ e ∈ admitted, e.1 ≠ k
  last : ∀ k t, stamps.lookup k = some t →
    (k, t) ∈ admitted ∧ ∀ e ∈ admitted, e.1 = k → e.2 ≤ t
  spaced : admitted.Pairwise fun d e => d.1 = e.1 → gap ≤ e.2 - d.2

variable {gap start now : T} {stamps admitted : List (κ × T)} {k : κ}

theorem Ok.nil : Ok (κ := κ) gap [] [] where
  fresh _ _ e he := absurd he List.not_mem_nil
  last _ _ h := by simp at h
  spaced := .nil

/-- A key that is held back was admitted less than a gap ago, or the start is that close. -/
theorem Ok.exists_recent (h : Ok gap stamps admitted)
    (hheld : ¬ Admits gap start stamps k now) :
    now - start < gap ∨ ∃ t, (k, t) ∈ admitted ∧ now - t < gap := by
  rw [Admits, not_not] at hheld
  cases hlookup : stamps.lookup k with
  | none =>
    rw [hlookup] at hheld
    exact .inl hheld
  | some t =>
    rw [hlookup] at hheld
    exact .inr ⟨t, (h.last k t hlookup).1, hheld⟩

variable [IsOrderedAddMonoid T]

/-- An admitted key is a gap after every time it was admitted before. -/
theorem Ok.gap_le (h : Ok gap stamps admitted) (hadmits : Admits gap start stamps k now) :
    ∀ e ∈ admitted, e.1 = k → gap ≤ now - e.2 := by
  intro e he hk
  cases hlookup : stamps.lookup k with
  | none => exact absurd hk (h.fresh k hlookup e he)
  | some t =>
    rw [Admits, hlookup, Option.getD_some, not_lt] at hadmits
    exact hadmits.trans (sub_le_sub_left ((h.last k t hlookup).2 e he hk) now)

theorem Ok.admit (h : Ok gap stamps admitted) (hpast : ∀ e ∈ admitted, e.2 ≤ now)
    (hadmits : Admits gap start stamps k now) :
    Ok gap (setItem stamps k now) (admitted ++ [(k, now)]) where
  fresh k' hk' := by
    rw [lookup_setItem] at hk'
    split at hk'
    · cases hk'
    · rename_i hne
      intro e he
      rcases List.mem_append.1 he with he | he
      · exact h.fresh k' hk' e he
      · obtain rfl := List.mem_singleton.1 he
        exact Ne.symm hne
  last k' t hk' := by
    rw [lookup_setItem] at hk'
    split at hk'
    · rename_i heq
      obtain rfl := Option.some.inj hk'
      refine ⟨heq ▸ List.mem_append_right _ (List.mem_singleton_self _), fun e he _ => ?_⟩
      rcases List.mem_append.1 he with he | he
      · exact hpast e he
      · obtain rfl := List.mem_singleton.1 he
        exact le_rfl
    · rename_i hne
      obtain ⟨hmem, hle⟩ := h.last k' t hk'
      refine ⟨List.mem_append_left _ hmem, fun e he hkey => ?_⟩
      rcases List.mem_append.1 he with he | he
      · exact hle e he hkey
      · obtain rfl := List.mem_singleton.1 he
        exact absurd hkey.symm hne
  spaced := by
    refine List.pairwise_append.2 ⟨h.spaced, List.pairwise_singleton _ _, ?_⟩
    intro d hd e he hkey
    obtain rfl := List.mem_singleton.1 he
    exact h.gap_le hadmits d hd hkey

end Throttle
