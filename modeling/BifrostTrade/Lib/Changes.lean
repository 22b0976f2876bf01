import BifrostTrade.Lib.Dict
import BifrostTrade.Lib.Runs

/-!
# Changes

The changes of a sequence of values: each value that differs from the one before, with that one.
And a reporter, which keeps the last value of every key and announces the changes of each, and its
first value only where this is the one that it waits for.
-/

namespace Changes

variable {α : Type*} [DecidableEq α]

/-- The changes of the values `l` after `a`. -/
def changes : α → List α → List (α × α)
  | _, [] => []
  | a, b :: l => if a = b then changes b l else (a, b) :: changes b l

theorem changes_append (a : α) (l l' : List α) :
    changes a (l ++ l') = changes a l ++ changes (l.getLastD a) l' := by
  induction l generalizing a with
  | nil => rfl
  | cons b l ih =>
    rw [List.cons_append, changes, changes, ih, List.getLastD_cons]
    split_ifs <;> rfl

theorem changes_concat (a b : α) (l : List α) :
    changes a (l ++ [b]) =
      changes a l ++ if l.getLastD a = b then [] else [(l.getLastD a, b)] := by
  rw [changes_append]
  rfl

theorem ne_of_mem_changes {a : α} {l : List α} {e : α × α} (h : e ∈ changes a l) :
    e.1 ≠ e.2 := by
  induction l generalizing a with
  | nil => simp [changes] at h
  | cons b l ih =>
    rw [changes] at h
    split_ifs at h with hab
    · exact ih h
    · rcases List.mem_cons.1 h with rfl | h
      · exact hab
      · exact ih h

/-- Every change starts where the one before it ended, the first of them at the first value. -/
theorem isChain_changes (x a : α) (l : List α) :
    ((x, a) :: changes a l).IsChain fun e f => e.2 = f.1 := by
  induction l generalizing x a with
  | nil => simp [changes]
  | cons b l ih =>
    rw [changes]
    split_ifs with hab
    · rw [hab]
      exact ih x b
    · exact .cons_cons rfl (ih a b)

/-- The last change ends at the last value. -/
theorem getLastD_changes (a : α) (l : List α) :
    ((changes a l).map Prod.snd).getLastD a = l.getLastD a := by
  induction l generalizing a with
  | nil => rfl
  | cons b l ih =>
    rw [changes, List.getLastD_cons]
    split_ifs with hab
    · rw [hab, ih]
    · rw [List.map_cons, List.getLastD_cons, ih]

/-! ## Announcements -/

/-- What is announced of the values of a key: the first one where it is `awaited`, and every
change. -/
def announcements (unknown awaited : α) : List α → List (α × α)
  | [] => []
  | a :: l => (if a = awaited then [(unknown, a)] else []) ++ changes a l

section Announcements

variable {unknown awaited : α} {l : List α}

theorem announcements_concat (a : α) : announcements unknown awaited (l ++ [a]) =
    announcements unknown awaited l ++
      if l.getLast? = some a then []
      else if l.getLast? = none ∧ a ≠ awaited then []
      else [((l.getLast?).getD unknown, a)] := by
  cases l with
  | nil => by_cases ha : a = awaited <;> simp [announcements, changes, ha]
  | cons b l =>
    have hlast : (b :: l).getLast? = some (l.getLastD b) := by
      rw [List.getLast?_cons, List.getLastD_eq_getLast?]
    rw [List.cons_append, announcements, changes_concat, announcements, hlast, ← List.append_assoc]
    simp

theorem ne_of_mem_announcements (h : unknown ≠ awaited) {e : α × α}
    (he : e ∈ announcements unknown awaited l) : e.1 ≠ e.2 := by
  cases l with
  | nil => simp [announcements] at he
  | cons a l =>
    rcases List.mem_append.1 he with hfirst | hchange
    · split_ifs at hfirst with ha
      · obtain rfl := List.mem_singleton.1 hfirst
        rw [ha]
        exact h
      · exact absurd hfirst List.not_mem_nil
    · exact ne_of_mem_changes hchange

theorem isChain_announcements (unknown awaited : α) (l : List α) :
    (announcements unknown awaited l).IsChain fun e f => e.2 = f.1 := by
  cases l with
  | nil => exact .nil
  | cons a l =>
    have h := isChain_changes unknown a l
    rw [announcements]
    split_ifs
    · exact h
    · exact h.of_cons

/-- The last announcement ends at the value that the key has now. -/
theorem getLast?_announcements (h : announcements unknown awaited l ≠ []) :
    (announcements unknown awaited l).getLast?.map Prod.snd = l.getLast? := by
  cases l with
  | nil => exact absurd rfl h
  | cons a l =>
    rw [List.getLast?_cons, ← List.getLastD_eq_getLast?, ← getLastD_changes a l, announcements]
    rw [announcements] at h
    rcases List.eq_nil_or_concat (changes a l) with hnil | ⟨front, e, hchanges⟩
    · rw [hnil, List.append_nil] at h ⊢
      split_ifs at h ⊢ with ha
      · rfl
      · exact absurd rfl h
    · rw [List.concat_eq_append] at hchanges
      rw [hchanges, ← List.append_assoc, List.getLast?_concat, List.map_append, List.map_cons,
        List.map_nil, List.getLastD_concat, Option.map_some]

end Announcements

/-! ## Reporters -/

section Values

variable {ε κ β : Type*} [DecidableEq κ] (key : ε → κ) (value : ε → β)

/-- The values reported of a key. -/
def valuesOf (k : κ) (es : List ε) : List β := (es.filter (key · = k)).map value

theorem valuesOf_concat (k : κ) (es : List ε) (e : ε) :
    valuesOf key value k (es ++ [e]) =
      valuesOf key value k es ++ if key e = k then [value e] else [] := by
  rw [valuesOf, List.filter_append, List.map_append, valuesOf]
  congr 1
  by_cases h : key e = k <;> simp [h]

end Values

section Reporter

open Runs

variable {ε κ : Type*} [DecidableEq κ] (key : ε → κ) (value : ε → α) (origin : Option α → α)
  (awaited : α)

/-- The last value of every key, and the reports announced, each with the value before. -/
structure Reporter (ε κ α : Type*) where
  last : List (κ × α)
  announced : List (ε × α)

/-- A report that comes in. -/
def Reporter.step (r : Reporter ε κ α) (e : ε) : Reporter ε κ α where
  last := Dict.setItem r.last (key e) (value e)
  announced := r.announced ++
    if r.last.lookup (key e) = some (value e) then []
    else if r.last.lookup (key e) = none ∧ value e ≠ awaited then []
    else [(e, origin (r.last.lookup (key e)))]

/-- What a run keeps: the last value of every key is known, and of every key its announcements were
made. -/
structure Reports (es : List ε) (r : Reporter ε κ α) : Prop where
  last : ∀ k, r.last.lookup k = (valuesOf key value k es).getLast?
  announced : ∀ k, (r.announced.filter (key ·.1 = k)).map (fun x => (x.2, value x.1)) =
    announcements (origin none) awaited (valuesOf key value k es)
  mem : ∀ x ∈ r.announced, x.1 ∈ es

variable {key value origin awaited}

theorem Reports.step (horigin : ∀ e, origin (some (value e)) = value e) {es : List ε}
    {r : Reporter ε κ α} (h : Reports key value origin awaited es r) (e : ε) :
    Reports key value origin awaited (es ++ [e]) (r.step key value origin awaited e) := by
  have hprev : origin (r.last.lookup (key e)) =
      ((valuesOf key value (key e) es).getLast?).getD (origin none) := by
    rw [h.last]
    cases hlast : (valuesOf key value (key e) es).getLast? with
    | none => rfl
    | some a =>
      obtain ⟨e', -, rfl⟩ := List.mem_map.1 (List.mem_of_getLast? hlast)
      exact horigin e'
  refine ⟨fun k => ?_, fun k => ?_, fun x hx => ?_⟩
  · rw [valuesOf_concat, Reporter.step, Dict.lookup_setItem, h.last]
    by_cases hk : key e = k
    · rw [if_pos hk.symm, if_pos hk, List.getLast?_concat]
    · rw [if_neg (Ne.symm hk), if_neg hk, List.append_nil]
  · rw [valuesOf_concat, Reporter.step, hprev, h.last]
    simp only
    rw [List.filter_append, List.map_append, h.announced]
    by_cases hk : key e = k
    · subst hk
      rw [if_pos rfl, announcements_concat]
      split_ifs <;> simp
    · rw [if_neg hk, List.append_nil]
      split_ifs <;> simp [hk]
  · rw [Reporter.step] at hx
    rcases List.mem_append.1 hx with hmem | hmem
    · exact List.mem_append_left _ (h.mem x hmem)
    · split_ifs at hmem
      · exact absurd hmem List.not_mem_nil
      · exact absurd hmem List.not_mem_nil
      · rw [List.mem_singleton.1 hmem]
        exact List.mem_append_right _ (List.mem_singleton.2 rfl)

/-- Over every run the reporter announces of every key what there is to announce. -/
theorem reports_run (horigin : ∀ e, origin (some (value e)) = value e) (es : List ε) :
    Reports key value origin awaited es
      (run (Reporter.step key value origin awaited) ⟨[], []⟩ es) :=
  invariant (P := fun _ _ _ => True) (Reports key value origin awaited)
    ⟨fun _ => rfl, fun _ => rfl, fun _ hx => absurd hx List.not_mem_nil⟩
    (fun _ e _ h => h.step horigin e) fun _ _ _ _ => trivial

end Reporter

end Changes
