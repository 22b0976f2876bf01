import BifrostTrade.Lib.Documents
import BifrostTrade.Lib.Refusals

/-!
# Schemas of nested models

A model is an object whose fields are leaves with a default or models again.  To validate a value
against it fills in the defaults of what is missing, checks the leaves that are there and drops
other keys, so that the result has a value at every path of the schema (`validate_get?`).
-/

namespace Py

open Json

/-- A leaf of some type with its default, or a model of named fields. -/
inductive Schema (τ : Type) where
  | leaf (type : τ) (default : Json.Value)
  | model (name : String) (fields : List (List ℕ × Schema τ))

/-- Where a value is wrong, and what is wrong with it. -/
structure ValidationError where
  loc : List (List ℕ)
  msg : String

/-- The error as it stands in a model that has the value under a key. -/
def ValidationError.under (key : List ℕ) (e : ValidationError) : ValidationError :=
  { e with loc := key :: e.loc }

namespace Schema

variable {τ : Type}

mutual

/-- The value of a model that is given nothing. -/
def dump : Schema τ → Json.Value
  | leaf _ default => default
  | model _ fields => .object (dumpFields fields)

/-- The fields of such a model. -/
def dumpFields : List (List ℕ × Schema τ) → Members
  | [] => []
  | (key, s) :: fields => (key, s.dump) :: dumpFields fields

end

/-- The value of a field: its default where nothing is given, else what is given, validated. -/
def fieldValue (key : List ℕ) (default : Json.Value)
    (valid : Json.Value → Except ValidationError Json.Value) :
    Option Json.Value → Except ValidationError Json.Value
  | some v => (valid v).mapError fun e => e.under key
  | none => .ok default

section Validate

variable (check : τ → Json.Value → Except ValidationError Json.Value)

mutual

/-- The value with its leaves checked and its defaults filled in, or the first error. -/
def validate : Schema τ → Json.Value → Except ValidationError Json.Value
  | leaf type _, v => check type v
  | model _ fields, .object members => (validateFields fields members).map .object
  | model name _, _ =>
      .error ⟨[], "Input should be a valid dictionary or instance of " ++ name⟩

/-- The fields of a model in their order; keys that are no field are dropped. -/
def validateFields : List (List ℕ × Schema τ) → Members → Except ValidationError Members
  | [], _ => .ok []
  | (key, s) :: fields, members => do
      let v ← fieldValue key s.dump (fun v => validate s v) (members.lookup key)
      let rest ← validateFields fields members
      return (key, v) :: rest

end

end Validate

mutual

/-- Every leaf has a default of its type, and no model has a field twice. -/
def wellFormed (hasType : τ → Json.Value → Bool) : Schema τ → Bool
  | leaf type default => hasType type default
  | model _ fields => (fields.map Prod.fst).Nodup && wellFormedFields hasType fields

/-- The fields are well formed. -/
def wellFormedFields (hasType : τ → Json.Value → Bool) : List (List ℕ × Schema τ) → Bool
  | [] => true
  | (_, s) :: fields => wellFormed hasType s && wellFormedFields hasType fields

end

/-- The part of a schema at the end of a path. -/
def get? : Schema τ → Path → Option (Schema τ)
  | s, [] => some s
  | model _ fields, key :: path => (fields.lookup key).bind fun s => s.get? path
  | leaf _ _, _ :: _ => none

/-! ## Fields -/

theorem lookup_dumpFields (fields : List (List ℕ × Schema τ)) (key : List ℕ) :
    (dumpFields fields).lookup key = (fields.lookup key).map dump := by
  induction fields with
  | nil => simp [dumpFields]
  | cons f fields ih =>
    rw [dumpFields, List.lookup_cons, List.lookup_cons, ih]
    cases key == f.1 <;> simp

theorem keys_dumpFields (fields : List (List ℕ × Schema τ)) :
    (dumpFields fields).map Prod.fst = fields.map Prod.fst := by
  induction fields with
  | nil => rw [dumpFields]; rfl
  | cons f fields ih => rw [dumpFields, List.map_cons, List.map_cons, ih]

theorem wellFormed_lookup {hasType : τ → Json.Value → Bool} {fields : List (List ℕ × Schema τ)}
    (h : wellFormedFields hasType fields = true) {key : List ℕ} {s : Schema τ}
    (hs : fields.lookup key = some s) : wellFormed hasType s = true := by
  induction fields with
  | nil => simp at hs
  | cons f fields ih =>
    rw [wellFormedFields, Bool.and_eq_true] at h
    rw [List.lookup_cons] at hs
    split at hs
    · obtain rfl := Option.some.inj hs
      exact h.1
    · exact ih h.2 hs

theorem wellFormed_get? {hasType : τ → Json.Value → Bool} {s s' : Schema τ} {path : Path}
    (h : wellFormed hasType s = true) (hs : s.get? path = some s') :
    wellFormed hasType s' = true := by
  induction path generalizing s with
  | nil =>
    obtain rfl : s = s' := by cases s <;> exact Option.some.inj hs
    exact h
  | cons key path ih =>
    cases s with
    | leaf type default => cases hs
    | model name fields =>
      obtain ⟨s₁, hs₁, hs'⟩ := Option.bind_eq_some_iff.1 hs
      rw [wellFormed, Bool.and_eq_true] at h
      exact ih (wellFormed_lookup h.2 hs₁) hs'

/-- The defaults have a value at every path of the schema. -/
theorem dump_get? {s s' : Schema τ} {path : Path} (h : s.get? path = some s') :
    s.dump.get? path = some s'.dump := by
  induction path generalizing s with
  | nil =>
    obtain rfl : s = s' := by cases s <;> exact Option.some.inj h
    exact Value.get?_nil s.dump
  | cons key path ih =>
    cases s with
    | leaf type default => cases h
    | model name fields =>
      obtain ⟨s₁, hs₁, hs'⟩ := Option.bind_eq_some_iff.1 h
      rw [dump, Value.get?_object_cons, lookup_dumpFields, hs₁, Option.map_some, Option.bind_some,
        ih hs']

section Validate

variable {check : τ → Json.Value → Except ValidationError Json.Value}

/-- What a field of a validated model is: the given value validated, or the default. -/
def Filled (check : τ → Json.Value → Except ValidationError Json.Value) (s : Schema τ)
    (given : Option Json.Value) (v : Json.Value) : Prop :=
  (∃ w, given = some w ∧ validate check s w = .ok v) ∨ (given = none ∧ v = s.dump)

theorem filled_of_fieldValue {key : List ℕ} {s : Schema τ} {given : Option Json.Value}
    {v : Json.Value} (h : fieldValue key s.dump (validate check s) given = .ok v) :
    Filled check s given v := by
  cases given with
  | none => exact Or.inr ⟨rfl, (Except.ok.inj h).symm⟩
  | some w =>
    refine Or.inl ⟨w, rfl, ?_⟩
    rw [fieldValue] at h
    cases hw : validate check s w with
    | ok v' =>
      rw [hw] at h
      exact h
    | error e =>
      rw [hw] at h
      cases h

theorem validateFields_ok {fields : List (List ℕ × Schema τ)} {members vs : Members}
    (h : validateFields check fields members = .ok vs) :
    vs.map Prod.fst = fields.map Prod.fst ∧ ∀ key s, fields.lookup key = some s →
      ∃ v, vs.lookup key = some v ∧ Filled check s (members.lookup key) v := by
  induction fields generalizing vs with
  | nil =>
    obtain rfl := Except.ok.inj h
    simp
  | cons f fields ih =>
    rw [validateFields, bind_ok_iff] at h
    obtain ⟨v, hv, h⟩ := h
    obtain ⟨rest, hrest, h⟩ := bind_ok_iff.1 h
    obtain rfl := Except.ok.inj h
    obtain ⟨hkeys, hlookup⟩ := ih hrest
    refine ⟨by rw [List.map_cons, List.map_cons, hkeys], fun key s hs => ?_⟩
    rw [List.lookup_cons] at hs ⊢
    by_cases hkey : key = f.1
    · obtain rfl : f.2 = s := by simpa [hkey] using hs
      refine ⟨v, by simp [hkey], ?_⟩
      rw [hkey]
      exact filled_of_fieldValue hv
    · have hne : (key == f.1) = false := by simpa using hkey
      rw [hne] at hs ⊢
      exact hlookup key s hs

/-- What a validated value has at a path of its schema. -/
theorem validate_get? {s s' : Schema τ} {v e : Json.Value} {path : Path}
    (h : validate check s v = .ok e) (hs : s.get? path = some s') :
    ∃ e', e.get? path = some e' ∧ Filled check s' (v.get? path) e' := by
  induction path generalizing s v e with
  | nil =>
    obtain rfl : s = s' := by cases s <;> exact Option.some.inj hs
    exact ⟨e, Value.get?_nil e, Or.inl ⟨v, Value.get?_nil v, h⟩⟩
  | cons key path ih =>
    cases s with
    | leaf type default => cases hs
    | model name fields =>
      obtain ⟨s₁, hs₁, hs'⟩ := Option.bind_eq_some_iff.1 hs
      cases v with
      | object members =>
        obtain ⟨vs, hvs, rfl⟩ := map_ok_iff.1 h
        obtain ⟨e₁, he₁, hfilled⟩ := (validateFields_ok hvs).2 key s₁ hs₁
        rw [Value.get?_object_cons, Value.get?_object_cons, he₁, Option.bind_some]
        rcases hfilled with ⟨w, hw, hvalid⟩ | ⟨hnone, rfl⟩
        · rw [hw, Option.bind_some]
          exact ih hvalid hs'
        · rw [hnone, Option.bind_none]
          exact ⟨s'.dump, dump_get? hs', Or.inr ⟨rfl, rfl⟩⟩
      | _ => cases h

/-! ## Checks of the leaves -/

/-- A check of leaves answers values of the type and keeps them as they are; it takes no object. -/
structure LeafCheck (check : τ → Json.Value → Except ValidationError Json.Value)
    (hasType : τ → Json.Value → Bool) : Prop where
  typed : ∀ {type v w}, check type v = .ok w → hasType type w = true
  keeps : ∀ {type w}, hasType type w = true → check type w = .ok w
  isObject : ∀ {type w}, hasType type w = true → w.isObject = false
  refuses : ∀ {type members w}, check type (.object members) ≠ .ok w

variable {hasType : τ → Json.Value → Bool} {given : Option Json.Value} {e : Json.Value}

theorem Filled.leaf (hcheck : LeafCheck check hasType) {type : τ} {default : Json.Value}
    (hdefault : hasType type default = true) (h : Filled check (leaf type default) given e) :
    hasType type e = true := by
  rcases h with ⟨w, -, hw⟩ | ⟨-, rfl⟩
  · exact hcheck.typed hw
  · exact hdefault

theorem Filled.model {name : String} {fields : List (List ℕ × Schema τ)}
    (h : Filled check (model name fields) given e) :
    ∃ vs, e = .object vs ∧ vs.map Prod.fst = fields.map Prod.fst ∧
      ∀ key s, fields.lookup key = some s →
        ∃ v given, vs.lookup key = some v ∧ Filled check s given v := by
  rcases h with ⟨w, -, hw⟩ | ⟨-, rfl⟩
  · cases w with
    | object members =>
      obtain ⟨vs, hvs, rfl⟩ := map_ok_iff.1 hw
      refine ⟨vs, rfl, (validateFields_ok hvs).1, fun key s hs => ?_⟩
      obtain ⟨v, hv, hfilled⟩ := (validateFields_ok hvs).2 key s hs
      exact ⟨v, _, hv, hfilled⟩
    | _ => cases hw
  · refine ⟨dumpFields fields, rfl, keys_dumpFields fields, fun key s hs => ?_⟩
    exact ⟨s.dump, none, by rw [lookup_dumpFields, hs]; rfl, Or.inr ⟨rfl, rfl⟩⟩

/-- What is validated has a value at every path of its schema. -/
theorem Filled.get? {s s' : Schema τ} {path : Path} (h : Filled check s given e)
    (hs : s.get? path = some s') :
    ∃ e' given', e.get? path = some e' ∧ Filled check s' given' e' := by
  rcases h with ⟨w, -, hw⟩ | ⟨-, rfl⟩
  · obtain ⟨e', he', hfilled⟩ := validate_get? hw hs
    exact ⟨e', _, he', hfilled⟩
  · exact ⟨s'.dump, none, dump_get? hs, Or.inr ⟨rfl, rfl⟩⟩

theorem lookup_of_keys {α β : Type} {xs : List (List ℕ × α)} {ys : List (List ℕ × β)}
    (h : xs.map Prod.fst = ys.map Prod.fst) {key : List ℕ} {x : α} (hx : xs.lookup key = some x) :
    ∃ y, ys.lookup key = some y := by
  rw [← Option.isSome_iff_exists, List.lookup_isSome_iff]
  have hmem : key ∈ ys.map Prod.fst := by
    rw [← h]
    obtain ⟨l, l', rfl, -⟩ := List.lookup_eq_some_iff.1 hx
    simp
  obtain ⟨y, hy, rfl⟩ := List.mem_map.1 hmem
  exact ⟨y, hy, beq_self_eq_true _⟩

/-- The keys of what is validated differ. -/
theorem Filled.distinctKeys (hcheck : LeafCheck check hasType) {s : Schema τ}
    (hs : wellFormed hasType s = true) (h : Filled check s given e) : e.DistinctKeys := by
  intro path members hget
  induction path generalizing s given e with
  | nil =>
    rw [Value.get?_nil] at hget
    obtain rfl := Option.some.inj hget
    cases s with
    | leaf type default => cases hcheck.isObject (h.leaf hcheck hs)
    | model name fields =>
      obtain ⟨vs, hvs, hkeys, -⟩ := h.model
      rw [wellFormed, Bool.and_eq_true, decide_eq_true_eq] at hs
      rw [Value.object.inj hvs, hkeys]
      exact hs.1
  | cons key path ih =>
    obtain ⟨vs, u, rfl, hu, hinner⟩ := Value.get?_cons_eq_some hget
    cases s with
    | leaf type default => cases hcheck.isObject (h.leaf hcheck hs)
    | model name fields =>
      obtain ⟨vs', hvs, hkeys, hfields⟩ := h.model
      obtain rfl := Value.object.inj hvs
      obtain ⟨s₁, hs₁⟩ := lookup_of_keys hkeys hu
      obtain ⟨v, given', hv, hfilled⟩ := hfields key s₁ hs₁
      obtain rfl : v = u := Option.some.inj (hv.symm.trans hu)
      rw [wellFormed, Bool.and_eq_true] at hs
      exact ih (wellFormed_lookup hs.2 hs₁) hfilled hinner

end Validate

end Schema

end Py
