import BifrostTrade.Portfolio.GateSafety

/-!
# Merging gates

What is at a path after gates are merged into limits: the value that was sent, or the value that was
there (`merged_get?`).  Gates without an unknown path follow the schema, down to the values of its
leaves (`known_or_below_leaf`).
-/

namespace Portfolio.GateSafety

open Py
open Py.Json (Members Path setKey lookup_setKey get?_setKey_cons)
open Py.Schema (Filled LeafCheck)

/-! ## One object -/

theorem lookup_deepMerge_of_none {base patch : Members} {k : List ℕ}
    (h : patch.lookup k = none) : (deepMerge base patch).lookup k = base.lookup k := by
  induction patch generalizing base with
  | nil => rw [deepMerge]
  | cons m patch ih =>
    rw [List.lookup_cons] at h
    have hne : (k == m.1) = false := by
      cases hk : k == m.1 with
      | false => rfl
      | true => simp [hk] at h
    rw [hne] at h
    rw [deepMerge, ih h, lookup_setKey, if_neg (by simpa using hne)]

theorem lookup_deepMerge_of_some {base patch : Members} {k : List ℕ} {v : Json.Value}
    (hpatch : (patch.map Prod.fst).Nodup) (h : patch.lookup k = some v) :
    (deepMerge base patch).lookup k = some (mergedValue (base.lookup k) v) := by
  induction patch generalizing base with
  | nil => simp at h
  | cons m patch ih =>
    rw [List.map_cons, List.nodup_cons] at hpatch
    rw [List.lookup_cons] at h
    by_cases hk : k = m.1
    · obtain rfl : m.2 = v := by simpa [hk] using h
      have hnone : patch.lookup k = none := by
        rw [List.lookup_eq_none_iff]
        intro e he
        have hne : m.1 ≠ e.1 := fun heq => hpatch.1 (heq ▸ List.mem_map_of_mem he)
        simpa [hk] using hne
      rw [deepMerge, lookup_deepMerge_of_none hnone, lookup_setKey, if_pos hk, hk]
    · have hne : (k == m.1) = false := by simpa using hk
      rw [hne] at h
      rw [deepMerge, ih hpatch.2 h, lookup_setKey, if_neg hk]

theorem mergedValue_of_not_isObject {old v : Json.Value} (h : old.isObject = false) :
    mergedValue (some old) v = v := by
  cases v with
  | object patch =>
    cases old with
    | object base => cases h
    | _ => simp [mergedValue]
  | _ => simp [mergedValue]

theorem mergedValue_object (base patch : Members) :
    mergedValue (some (.object base)) (.object patch) = .object (deepMerge base patch) := by
  rw [mergedValue]

/-! ## Known paths -/

/-- Gates with no unknown path are an object where a model is expected. -/
theorem object_of_unknownAt {reference : Members} {path : List ℕ} {v : Json.Value}
    (h : unknownAt (some (.object reference)) path v = []) :
    ∃ given, v = .object given ∧ unknownGatePaths reference (path ++ key ".") given = [] := by
  cases v with
  | object given =>
    rw [unknownAt] at h
    exact ⟨given, rfl, h⟩
  | _ =>
    rw [unknownAt] at h
    · cases h
    · simp

theorem unknownAt_of_lookup {reference given : Members} {before k : List ℕ} {v : Json.Value}
    (h : unknownGatePaths reference before given = []) (hv : given.lookup k = some v) :
    unknownAt (reference.lookup k) (before ++ k) v = [] := by
  induction given with
  | nil => simp at hv
  | cons m given ih =>
    rw [unknownGatePaths, List.append_eq_nil_iff] at h
    rw [List.lookup_cons] at hv
    by_cases hk : k = m.1
    · obtain rfl : m.2 = v := by simpa [hk] using hv
      rw [hk]
      exact h.1
    · have hne : (k == m.1) = false := by simpa using hk
      rw [hne] at hv
      exact ih h.2 hv

theorem not_unknownAt_none {path : List ℕ} {v : Json.Value} : unknownAt none path v ≠ [] := by
  rw [unknownAt]
  exact List.cons_ne_nil path []

/-- Nothing in the value is unknown to this part of the schema. -/
def Known : Schema LeafType → Json.Value → Prop
  | .leaf _ _, _ => True
  | .model _ fields, p => ∃ given before, p = .object given ∧
      unknownGatePaths (Schema.dumpFields fields) before given = []

theorem known_of_unknownAt {s : Schema LeafType} {path : List ℕ} {v : Json.Value}
    (h : unknownAt (some s.dump) path v = []) : Known s v := by
  cases s with
  | leaf type default => trivial
  | model name fields =>
    rw [Schema.dump] at h
    obtain ⟨given, rfl, hgiven⟩ := object_of_unknownAt h
    exact ⟨given, _, rfl, hgiven⟩

/-- A member of known gates is a field of the schema, and known itself. -/
theorem known_member {name : String} {fields : List (List ℕ × Schema LeafType)} {k : List ℕ}
    {given : Members} {v : Json.Value} (h : Known (.model name fields) (.object given))
    (hv : given.lookup k = some v) : ∃ s, fields.lookup k = some s ∧ Known s v := by
  obtain ⟨given', before, hgiven, hunknown⟩ := h
  obtain rfl := Json.Value.object.inj hgiven
  have hmember := unknownAt_of_lookup hunknown hv
  rw [Schema.lookup_dumpFields] at hmember
  cases hs : fields.lookup k with
  | none =>
    rw [hs] at hmember
    exact absurd hmember not_unknownAt_none
  | some s =>
    rw [hs] at hmember
    exact ⟨s, rfl, known_of_unknownAt hmember⟩

/-- A path of known gates is one of the schema, or goes through the value of a leaf. -/
theorem known_or_below_leaf {s : Schema LeafType} {p q : Json.Value} {path : Path}
    (h : Known s p) (hq : p.get? path = some q) :
    (∃ s', s.get? path = some s') ∨ ∃ above k below type default members,
      path = above ++ k :: below ∧ s.get? above = some (.leaf type default) ∧
        p.get? above = some (.object members) := by
  induction path generalizing s p with
  | nil => exact Or.inl ⟨s, by cases s <;> rfl⟩
  | cons k path ih =>
    obtain ⟨given, v, rfl, hv, hq⟩ := Json.Value.get?_cons_eq_some hq
    cases s with
    | leaf type default =>
      exact Or.inr ⟨[], k, path, type, default, given, rfl, rfl, Json.Value.get?_nil _⟩
    | model name fields =>
      obtain ⟨s₁, hs₁, hknown⟩ := known_member h hv
      rcases ih hknown hq with ⟨s', hs'⟩ | ⟨above, k', below, type, default, members, rfl, ha, hp⟩
      · exact Or.inl ⟨s', by rw [Schema.get?, hs₁, Option.bind_some, hs']⟩
      · refine Or.inr ⟨k :: above, k', below, type, default, members, rfl, ?_, ?_⟩
        · rw [Schema.get?, hs₁, Option.bind_some, ha]
        · rw [Json.Value.get?_object_cons, hv, Option.bind_some, hp]

/-! ## Paths after a merge -/

variable {check : LeafType → Json.Value → Except ValidationError Json.Value}

/-- At a path of the schema the merge is that of what is there and what is sent. -/
theorem merged_get? {s s' : Schema LeafType} {given : Option Json.Value} {e p : Json.Value}
    {path : Path} (he : Filled check s given e) (hp : Known s p) (hdistinct : p.DistinctKeys)
    (hs : s.get? path = some s') :
    ∃ e' given', Filled check s' given' e' ∧ e.get? path = some e' ∧
      ((p.get? path = none ∧ (mergedValue (some e) p).get? path = some e') ∨
        ∃ q, p.get? path = some q ∧ Known s' q ∧
          (mergedValue (some e) p).get? path = some (mergedValue (some e') q)) := by
  induction path generalizing s given e p with
  | nil =>
    obtain rfl : s = s' := by cases s <;> exact Option.some.inj hs
    exact ⟨e, given, he, Json.Value.get?_nil e, Or.inr ⟨p, Json.Value.get?_nil p, hp,
      Json.Value.get?_nil _⟩⟩
  | cons k path ih =>
    cases s with
    | leaf type default => cases hs
    | model name fields =>
      obtain ⟨s₁, hs₁, hs'⟩ := Option.bind_eq_some_iff.1 hs
      obtain ⟨vs, rfl, -, hfields⟩ := he.model
      obtain ⟨e₁, given₁, he₁, hfilled⟩ := hfields k s₁ hs₁
      have ⟨patch, _, hpatch, _⟩ := hp
      subst hpatch
      obtain ⟨hnodup, hmembers⟩ := Json.Value.distinctKeys_object_iff.1 hdistinct
      rw [mergedValue_object]
      simp only [Json.Value.get?_object_cons, he₁, Option.bind_some]
      cases hv : patch.lookup k with
      | none =>
        obtain ⟨e', given', he', hfilled'⟩ := hfilled.get? hs'
        rw [lookup_deepMerge_of_none hv, he₁, Option.bind_some, Option.bind_none]
        exact ⟨e', given', hfilled', he', Or.inl ⟨rfl, he'⟩⟩
      | some v =>
        rw [lookup_deepMerge_of_some hnodup hv, he₁, Option.bind_some, Option.bind_some]
        obtain ⟨s₂, hs₂, hknown⟩ := known_member hp hv
        obtain rfl : s₁ = s₂ := Option.some.inj (hs₁.symm.trans hs₂)
        exact ih hfilled hknown (hmembers k v hv) hs'

end Portfolio.GateSafety
