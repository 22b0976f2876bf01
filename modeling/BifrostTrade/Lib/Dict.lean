import Mathlib.Data.List.Basic
import Mathlib.Logic.Function.Basic

/-!
# Dictionaries

`d[k] = v` on a dictionary that keeps its keys in the order they came in, and what a lookup finds
after a run of such assignments: the last value assigned to the key.
-/

namespace Dict

variable {κ α : Type*} [DecidableEq κ]

/-- `d[k] = v`. -/
def setItem (d : List (κ × α)) (k : κ) (v : α) : List (κ × α) :=
  if k ∈ d.map Prod.fst then d.map fun e => if e.1 = k then (k, v) else e else d ++ [(k, v)]

/-- The assignments of `l`, one after another. -/
def setItems (d l : List (κ × α)) : List (κ × α) := l.foldl (fun d e => setItem d e.1 e.2) d

theorem lookup_cons_ite (e : κ × α) (d : List (κ × α)) (k : κ) :
    (e :: d).lookup k = if k = e.1 then some e.2 else d.lookup k := by
  obtain ⟨a, b⟩ := e
  rw [List.lookup_cons]
  by_cases h : k = a
  · simp [h]
  · rw [beq_eq_false_iff_ne.2 h, if_neg h]

theorem lookup_map_setItem (d : List (κ × α)) (k : κ) (v : α) (k' : κ) :
    (d.map fun e => if e.1 = k then (k, v) else e).lookup k' =
      if k' = k then (d.lookup k).map fun _ => v else d.lookup k' := by
  induction d with
  | nil => simp
  | cons e d ih =>
    rw [List.map_cons, lookup_cons_ite, lookup_cons_ite, lookup_cons_ite, ih]
    by_cases he : e.1 = k
    · rw [if_pos he]
      by_cases hk : k' = k
      · simp [hk, he]
      · simp [hk, he]
    · rw [if_neg he]
      by_cases hk : k' = k
      · subst hk
        rw [if_neg (Ne.symm he), if_pos rfl, if_pos rfl, if_neg (Ne.symm he)]
      · simp [hk]

theorem lookup_setItem (d : List (κ × α)) (k : κ) (v : α) (k' : κ) :
    (setItem d k v).lookup k' = if k' = k then some v else d.lookup k' := by
  by_cases hmem : k ∈ d.map Prod.fst
  · obtain ⟨e, he, rfl⟩ := List.mem_map.1 hmem
    obtain ⟨w, hw⟩ := Option.isSome_iff_exists.1
      (List.lookup_isSome_iff.2 ⟨e, he, beq_self_eq_true e.1⟩)
    rw [setItem, if_pos hmem, lookup_map_setItem, hw, Option.map_some]
  · have hnone : d.lookup k = none := List.lookup_eq_none_iff.2 fun e he =>
      bne_iff_ne.2 fun hk => hmem (hk ▸ List.mem_map_of_mem he)
    rw [setItem, if_neg hmem, List.lookup_append, lookup_cons_ite, List.lookup_nil]
    by_cases hk : k' = k
    · rw [hk, hnone, if_pos rfl, Option.none_or]
    · rw [if_neg hk, if_neg hk, Option.or_none]

/-- What is found was assigned or was there before. -/
theorem of_lookup_setItems {d l : List (κ × α)} {k : κ} {v : α}
    (h : (setItems d l).lookup k = some v) : (k, v) ∈ l ∨ d.lookup k = some v := by
  induction l generalizing d with
  | nil => exact .inr h
  | cons e l ih =>
    rcases ih (d := setItem d e.1 e.2) h with hmem | hbefore
    · exact .inl (List.mem_cons_of_mem _ hmem)
    · rw [lookup_setItem] at hbefore
      split_ifs at hbefore with hk
      · obtain rfl := Option.some.inj hbefore
        exact .inl (hk ▸ List.mem_cons_self ..)
      · exact .inr hbefore

/-- A key that was assigned is found. -/
theorem lookup_setItems_isSome {d l : List (κ × α)} {k : κ}
    (h : k ∈ l.map Prod.fst ∨ (d.lookup k).isSome) : ((setItems d l).lookup k).isSome := by
  induction l generalizing d with
  | nil => exact h.resolve_left List.not_mem_nil
  | cons e l ih =>
    refine ih (d := setItem d e.1 e.2) ?_
    rw [lookup_setItem]
    by_cases hk : k = e.1
    · exact .inr (by rw [if_pos hk]; rfl)
    · rw [if_neg hk]
      rcases h with hmem | hsome
      · exact .inl ((List.mem_cons.1 hmem).resolve_left hk)
      · exact .inr hsome

/-- A key whose every assignment is of one value has it. -/
theorem lookup_setItems_of_forall {l : List (κ × α)} {k : κ} {v : α} (hmem : (k, v) ∈ l)
    (hone : ∀ w, (k, w) ∈ l → w = v) : (setItems [] l).lookup k = some v := by
  obtain ⟨w, hw⟩ := Option.isSome_iff_exists.1
    (lookup_setItems_isSome (d := []) (.inl (List.mem_map.2 ⟨(k, v), hmem, rfl⟩)))
  rcases of_lookup_setItems hw with hin | hnil
  · rw [hw, hone w hin]
  · exact absurd hnil (by simp)

theorem lookup_setItems_eq_none {l : List (κ × α)} {k : κ} (h : k ∉ l.map Prod.fst) :
    (setItems [] l).lookup k = none := by
  rw [Option.eq_none_iff_forall_ne_some]
  intro v hv
  rcases of_lookup_setItems hv with hin | hnil
  · exact h (List.mem_map.2 ⟨(k, v), hin, rfl⟩)
  · exact absurd hnil (by simp)

theorem setItems_append (d l l' : List (κ × α)) :
    setItems d (l ++ l') = setItems (setItems d l) l' :=
  List.foldl_append ..

/-- Runs of assignments one after another are one run. -/
theorem foldl_setItems {β : Type*} (F : β → List (κ × α)) (xs : List β) (d : List (κ × α)) :
    xs.foldl (fun d x => setItems d (F x)) d = setItems d (xs.flatMap F) := by
  induction xs generalizing d with
  | nil => rfl
  | cons x xs ih => rw [List.foldl_cons, ih, List.flatMap_cons, setItems_append]

/-- A dictionary under other names of its keys. -/
theorem lookup_map_key {κ' : Type*} [DecidableEq κ'] {f : κ → κ'} (hf : Function.Injective f)
    (d : List (κ × α)) (k : κ) : (d.map fun e => (f e.1, e.2)).lookup (f k) = d.lookup k := by
  induction d with
  | nil => rfl
  | cons e d ih =>
    rw [List.map_cons, lookup_cons_ite, lookup_cons_ite, ih]
    exact if_congr hf.eq_iff rfl rfl

end Dict
