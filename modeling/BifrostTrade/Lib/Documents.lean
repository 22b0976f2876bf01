import BifrostTrade.Lib.JsonValue

/-!
# Paths in JSON objects

The value that a path of keys leads to in nested objects, how it changes where a member is set, and
objects all of whose keys differ, as a `dict` keeps them.
-/

namespace Py.Json

/-- The members of an object. -/
abbrev Members := List (List ℕ × Value)

/-- A path of keys. -/
abbrev Path := List (List ℕ)

namespace Value

/-- The value at the end of a path. -/
def get? : Value → Path → Option Value
  | v, [] => some v
  | object members, key :: path => (members.lookup key).bind fun v => v.get? path
  | _, _ :: _ => none

@[simp] theorem get?_nil (v : Value) : v.get? [] = some v := by
  cases v <;> rfl

@[simp] theorem get?_object_cons (members : Members) (key : List ℕ) (path : Path) :
    (object members).get? (key :: path) = (members.lookup key).bind fun v => v.get? path := rfl

/-- Only objects have paths in them. -/
theorem get?_cons_eq_some {v w : Value} {key : List ℕ} {path : Path}
    (h : v.get? (key :: path) = some w) : ∃ members u, v = object members ∧
      members.lookup key = some u ∧ u.get? path = some w := by
  cases v with
  | object members =>
    obtain ⟨u, hu, hw⟩ := Option.bind_eq_some_iff.1 h
    exact ⟨members, u, rfl, hu, hw⟩
  | _ => cases h

/-- Whether the value is an object. -/
def isObject : Value → Bool
  | object _ => true
  | _ => false

theorem get?_cons_of_isObject_eq_false {v : Value} (h : v.isObject = false) (key : List ℕ)
    (path : Path) : v.get? (key :: path) = none := by
  cases v with
  | object members => cases h
  | _ => rfl

end Value

/-! ## Members that are set -/

theorem lookup_map_replace (members : Members) (m : List ℕ × Value) (key : List ℕ) :
    (members.map fun e => if e.1 = m.1 then (e.1, m.2) else e).lookup key =
      if key = m.1 then (members.lookup key).map fun _ => m.2 else members.lookup key := by
  induction members with
  | nil => simp
  | cons e members ih =>
    rw [List.map_cons, apply_ite (fun e => List.lookup key (e :: _)), List.lookup_cons,
      List.lookup_cons, List.lookup_cons, ih]
    by_cases hkey : key = e.1
    · by_cases hm : e.1 = m.1 <;> simp [hkey, hm]
    · have hne : (key == e.1) = false := by simpa using hkey
      simp [hne]

theorem any_key_iff {members : Members} {key : List ℕ} :
    (members.any fun e => e.1 = key) = true ↔ ∃ v, members.lookup key = some v := by
  rw [← Option.isSome_iff_exists, List.lookup_isSome_iff, List.any_eq_true]
  refine exists_congr fun e => and_congr_right fun _ => ?_
  rw [decide_eq_true_eq, beq_iff_eq, eq_comm]

/-- The member that was set is found, and the others as before. -/
theorem lookup_setKey (members : Members) (m : List ℕ × Value) (key : List ℕ) :
    (setKey members m).lookup key = if key = m.1 then some m.2 else members.lookup key := by
  unfold setKey
  by_cases hany : (members.any fun e => e.1 = m.1) = true
  · obtain ⟨v, hv⟩ := any_key_iff.1 hany
    rw [if_pos hany, lookup_map_replace]
    split_ifs with hkey
    · rw [hkey, hv, Option.map_some]
    · rfl
  · have hnone : members.lookup m.1 = none := by
      rw [any_key_iff] at hany
      exact Option.eq_none_iff_forall_ne_some.2 fun v hv => hany ⟨v, hv⟩
    rw [if_neg hany, List.lookup_append, List.lookup_cons, List.lookup_nil]
    by_cases hkey : key = m.1
    · simp [hkey, hnone]
    · have hne : (key == m.1) = false := by simpa using hkey
      simp [hkey, hne]

theorem get?_setKey_cons (members : Members) (m : List ℕ × Value) (key : List ℕ) (path : Path) :
    (Value.object (setKey members m)).get? (key :: path) =
      if key = m.1 then m.2.get? path else (Value.object members).get? (key :: path) := by
  rw [Value.get?_object_cons, lookup_setKey]
  split_ifs <;> rfl

/-- A change below a member is a change of the object. -/
theorem get?_setKey_below {members : Members} {k : List ℕ} {old new : Value} {x : Option Value}
    {target path : Path} (hold : members.lookup k = some old) (hpath : path ≠ [])
    (h : ∀ below, path = k :: below →
      new.get? below = if below = target then x else old.get? below) :
    (Value.object (setKey members (k, new))).get? path =
      if path = k :: target then x else (Value.object members).get? path := by
  cases path with
  | nil => exact absurd rfl hpath
  | cons key below =>
    rw [get?_setKey_cons]
    by_cases hkey : key = k
    · subst hkey
      rw [if_pos rfl, h below rfl, Value.get?_object_cons, hold, Option.bind_some]
      simp
    · rw [if_neg hkey, if_neg fun heq => hkey (List.cons.inj heq).1]

theorem lookup_filter_ne (members : Members) (k key : List ℕ) :
    (members.filter fun m => m.1 ≠ k).lookup key =
      if key = k then none else members.lookup key := by
  induction members with
  | nil => simp
  | cons m members ih =>
    by_cases hm : m.1 = k
    · rw [List.filter_cons_of_neg (by simpa using hm), ih, List.lookup_cons]
      by_cases hkey : key = k
      · simp [hkey]
      · have hne : (key == m.1) = false := by simpa [hm] using hkey
        simp [hkey, hne]
    · rw [List.filter_cons_of_pos (by simpa using hm), List.lookup_cons, List.lookup_cons, ih]
      by_cases hkey : key = m.1
      · simp [hkey, hm]
      · have hne : (key == m.1) = false := by simpa using hkey
        simp [hne]

/-! ## Keys that differ -/

namespace Value

/-- No object along the paths has a key twice. -/
def DistinctKeys (v : Value) : Prop :=
  ∀ path members, v.get? path = some (object members) → (members.map Prod.fst).Nodup

theorem distinctKeys_of_isObject_eq_false {v : Value} (h : v.isObject = false) :
    v.DistinctKeys := by
  intro path members hget
  cases path with
  | nil =>
    rw [get?_nil] at hget
    obtain rfl := Option.some.inj hget
    cases h
  | cons key path =>
    rw [get?_cons_of_isObject_eq_false h] at hget
    cases hget

/-- The keys of an object differ, and so in its members. -/
theorem distinctKeys_object_iff {members : Members} : (object members).DistinctKeys ↔
    (members.map Prod.fst).Nodup ∧ ∀ key v, members.lookup key = some v → v.DistinctKeys := by
  constructor
  · intro h
    refine ⟨h [] members (get?_nil _), fun key v hv path inner hget => ?_⟩
    exact h (key :: path) inner (by rw [get?_object_cons, hv, Option.bind_some, hget])
  · rintro ⟨hnodup, hmembers⟩ path inner hget
    cases path with
    | nil =>
      rw [get?_nil] at hget
      obtain rfl := object.inj (Option.some.inj hget)
      exact hnodup
    | cons key path =>
      obtain ⟨v, hv, hinner⟩ := Option.bind_eq_some_iff.1 hget
      exact hmembers key v hv path inner hinner

theorem DistinctKeys.setKey {members : Members} {m : List ℕ × Value}
    (h : (object members).DistinctKeys) (hm : m.2.DistinctKeys) :
    (object (setKey members m)).DistinctKeys := by
  rw [distinctKeys_object_iff] at h ⊢
  refine ⟨?_, fun key v hv => ?_⟩
  · unfold Json.setKey
    split_ifs with hany
    · have hkeys : ((members.map fun e => if e.1 = m.1 then (e.1, m.2) else e).map Prod.fst) =
          members.map Prod.fst := by
        rw [List.map_map]
        refine List.map_congr_left fun e _ => ?_
        by_cases he : e.1 = m.1 <;> simp [he]
      rw [hkeys]
      exact h.1
    · rw [List.map_append, List.nodup_append]
      refine ⟨h.1, List.nodup_singleton _, ?_⟩
      rintro key hkey key' hkey' rfl
      obtain ⟨e, he, hkey⟩ := List.mem_map.1 hkey
      have hsame : e.1 = m.1 := hkey.trans (List.mem_singleton.1 hkey')
      exact hany (List.any_eq_true.2 ⟨e, he, decide_eq_true hsame⟩)
  · rw [lookup_setKey] at hv
    split_ifs at hv
    · obtain rfl := Option.some.inj hv
      exact hm
    · exact h.2 key v hv

theorem DistinctKeys.filter {members : Members} (k : List ℕ)
    (h : (object members).DistinctKeys) :
    (object (members.filter fun m => m.1 ≠ k)).DistinctKeys := by
  rw [distinctKeys_object_iff] at h ⊢
  refine ⟨h.1.sublist (List.filter_sublist.map Prod.fst), fun key v hv => ?_⟩
  rw [lookup_filter_ne] at hv
  split_ifs at hv
  exact h.2 key v hv

end Value

end Py.Json
