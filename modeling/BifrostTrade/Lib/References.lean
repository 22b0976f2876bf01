import BifrostTrade.Lib.Table

/-!
# References between tables

The rows of one table refer to rows of another by their keys.  A reference resolves when its key is
stored; what a deletion has to do with the rows that refer to what it takes away is said by the
reference: refuse, follow, or forget.
-/

namespace Sql

variable {ρ ρ' κ : Type*}

/-- Every reference of the rows is one of the keys. -/
def Resolves (rows : List ρ) (ref : ρ → Option κ) (keys : List κ) : Prop :=
  ∀ r ∈ rows, ∀ k ∈ ref r, k ∈ keys

instance [DecidableEq κ] (rows : List ρ) (ref : ρ → Option κ) (keys : List κ) :
    Decidable (Resolves rows ref keys) :=
  inferInstanceAs (Decidable (∀ _ ∈ _, ∀ _ ∈ _, _))

namespace Resolves

variable {rows : List ρ} {ref : ρ → Option κ} {keys : List κ}

theorem nil : Resolves ([] : List ρ) ref keys := fun _ h => absurd h List.not_mem_nil

/-- The keys may grow. -/
theorem mono {keys' : List κ} (h : Resolves rows ref keys) (hkeys : ∀ k ∈ keys, k ∈ keys') :
    Resolves rows ref keys' :=
  fun r hr k hk => hkeys k (h r hr k hk)

/-- Rows bring in no reference that the rows before them did not have. -/
theorem of_refs {rows' : List ρ'} {ref' : ρ' → Option κ} (h : Resolves rows ref keys)
    (hrefs : ∀ r' ∈ rows', ∀ k ∈ ref' r', ∃ r ∈ rows, k ∈ ref r) : Resolves rows' ref' keys := by
  intro r' hr' k hk
  obtain ⟨r, hr, hkr⟩ := hrefs r' hr' k hk
  exact h r hr k hkr

/-- Fewer rows refer to less. -/
theorem subset {rows' : List ρ} (h : Resolves rows ref keys) (hrows : ∀ r ∈ rows', r ∈ rows) :
    Resolves rows' ref keys :=
  h.of_refs fun r hr _ hk => ⟨r, hrows r hr, hk⟩

theorem append {rows' : List ρ} :
    Resolves (rows ++ rows') ref keys ↔ Resolves rows ref keys ∧ Resolves rows' ref keys := by
  simp only [Resolves, List.mem_append, or_imp, forall_and]

/-- A key that nothing refers to may go. -/
theorem erase {keys' : List κ} {gone : κ} (h : Resolves rows ref keys)
    (hkeys : ∀ k ∈ keys, k ≠ gone → k ∈ keys') (hunused : ∀ r ∈ rows, ref r ≠ some gone) :
    Resolves rows ref keys' := by
  intro r hr k hk
  refine hkeys k (h r hr k hk) ?_
  rintro rfl
  exact hunused r hr hk

end Resolves

variable [DecidableEq κ]

/-- `ON DELETE SET NULL`: a reference to what is gone is forgotten. -/
def forget (gone : κ) (ref : Option κ) : Option κ := if ref = some gone then none else ref

@[simp] theorem forget_self (gone : κ) : forget gone (some gone) = none := if_pos rfl

theorem forget_of_ne {gone : κ} {ref : Option κ} (h : ref ≠ some gone) : forget gone ref = ref :=
  if_neg h

theorem forget_eq_some_iff {gone k : κ} {ref : Option κ} :
    forget gone ref = some k ↔ ref = some k ∧ k ≠ gone := by
  unfold forget
  split
  · rename_i h
    rw [h, Option.some.injEq]
    exact ⟨fun h => absurd h (by simp), fun ⟨heq, hne⟩ => absurd heq.symm hne⟩
  · rename_i h
    exact ⟨fun heq => ⟨heq, fun hk => h (hk ▸ heq)⟩, And.left⟩

/-- What forgets its reference to a key may lose the key. -/
theorem Resolves.forget {rows : List ρ} {rows' : List ρ'} {ref : ρ → Option κ}
    {ref' : ρ' → Option κ} {keys keys' : List κ} {gone : κ} (h : Resolves rows ref keys)
    (hkeys : ∀ k ∈ keys, k ≠ gone → k ∈ keys')
    (hrefs : ∀ r' ∈ rows', ∃ r ∈ rows, ref' r' = Sql.forget gone (ref r)) :
    Resolves rows' ref' keys' := by
  intro r' hr' k hk
  obtain ⟨r, hr, heq⟩ := hrefs r' hr'
  rw [Option.mem_def, heq, forget_eq_some_iff] at hk
  exact hkeys k (h r hr k hk.1) hk.2

/-! ## One row of a table -/

namespace Table

variable {key : ρ → κ}

omit [DecidableEq κ] in
/-- A deletion that finds nothing. -/
theorem delete_eq_self {t : Table key} {p : ρ → Bool} (h : ∀ r ∈ t.rows, p r = false) :
    t.delete p = t := by
  obtain ⟨rows, hnodup⟩ := t
  rw [delete, mk.injEq, List.filter_eq_self]
  intro r hr
  rw [h r hr]
  rfl

/-- An upsert of a new key is an insert. -/
theorem upsert_of_hasKey_eq_false {t : Table key} {new : ρ} {merge : ρ → ρ}
    {hmerge : ∀ r, key (merge r) = key r} (h : t.hasKey (key new) = false) :
    t.upsert new merge hmerge = t.insertOrIgnore new := by
  rw [upsert, h]
  rfl

/-- An upsert leaves the rows of other keys. -/
theorem filter_upsert {t : Table key} {new : ρ} {merge : ρ → ρ}
    {hmerge : ∀ r, key (merge r) = key r} {q : ρ → Bool}
    (hq : ∀ r, key r = key new → q r = false) :
    (t.upsert new merge hmerge).rows.filter q = t.rows.filter q := by
  unfold upsert
  split
  · rw [update]
    dsimp only
    rw [List.filter_map]
    have hkeep : (q ∘ fun r => if key r = key new then merge r else r) = q := by
      funext r
      rw [Function.comp_apply]
      split
      · rename_i hk
        rw [hq _ ((hmerge r).trans hk), hq r hk]
      · rfl
    rw [hkeep]
    refine (List.map_congr_left fun r hr => if_neg fun hk => ?_).trans (List.map_id _)
    have hqr := (List.mem_filter.1 hr).2
    rw [hq r hk] at hqr
    cases hqr
  · exact filter_insertOrIgnore (hq new rfl)

/-- The keys that are stored. -/
def keys (t : Table key) : List κ := t.rows.map key

omit [DecidableEq κ] in
theorem mem_keys {t : Table key} {k : κ} : k ∈ t.keys ↔ ∃ r ∈ t.rows, key r = k := List.mem_map

theorem hasKey_iff_mem_keys {t : Table key} {k : κ} : t.hasKey k = true ↔ k ∈ t.keys := by
  rw [hasKey_iff, mem_keys]

/-- `DELETE … WHERE key = k`. -/
def remove (t : Table key) (k : κ) : Table key := t.delete fun r => key r = k

theorem mem_remove {t : Table key} {k : κ} {r : ρ} :
    r ∈ (t.remove k).rows ↔ r ∈ t.rows ∧ key r ≠ k := by
  rw [remove, mem_delete, decide_eq_false_iff_not]

theorem mem_keys_remove {t : Table key} {k k' : κ} :
    k' ∈ (t.remove k).keys ↔ k' ∈ t.keys ∧ k' ≠ k := by
  rw [mem_keys, mem_keys]
  constructor
  · rintro ⟨r, hr, rfl⟩
    exact ⟨⟨r, (mem_remove.1 hr).1, rfl⟩, (mem_remove.1 hr).2⟩
  · rintro ⟨⟨r, hr, rfl⟩, hne⟩
    exact ⟨r, mem_remove.2 ⟨hr, hne⟩, rfl⟩

theorem get_remove {t : Table key} {k k' : κ} :
    (t.remove k).get k' = if k' = k then none else t.get k' := by
  split
  · rename_i h
    exact get_eq_none_iff.2 fun r hr => h ▸ (mem_remove.1 hr).2
  · rename_i h
    refine Option.ext fun r => ?_
    rw [get_eq_some_iff, get_eq_some_iff, mem_remove]
    constructor
    · rintro ⟨hr, hk⟩
      exact ⟨hr.1, hk⟩
    · rintro ⟨hr, hk⟩
      exact ⟨⟨hr, hk ▸ h⟩, hk⟩

/-- `UPDATE … WHERE key = k`. -/
def modify (t : Table key) (k : κ) (f : ρ → ρ) (hf : ∀ r, key (f r) = key r) : Table key :=
  t.update (fun r => if key r = k then f r else r) fun r => by
    split
    · exact hf r
    · rfl

theorem mem_modify {t : Table key} {k : κ} {f : ρ → ρ} {hf : ∀ r, key (f r) = key r} {r : ρ} :
    r ∈ (t.modify k f hf).rows ↔
      (r ∈ t.rows ∧ key r ≠ k) ∨ ∃ old ∈ t.rows, key old = k ∧ r = f old := by
  simp only [modify, update, List.mem_map]
  constructor
  · rintro ⟨old, hold, rfl⟩
    split
    · exact .inr ⟨old, hold, ‹_›, rfl⟩
    · exact .inl ⟨hold, ‹_›⟩
  · rintro (⟨hr, hk⟩ | ⟨old, hold, hk, rfl⟩)
    · exact ⟨r, hr, if_neg hk⟩
    · exact ⟨old, hold, if_pos hk⟩

/-- Two updates of one row are one. -/
theorem modify_modify {t : Table key} {k : κ} {f g : ρ → ρ} {hf : ∀ r, key (f r) = key r}
    {hg : ∀ r, key (g r) = key r} :
    (t.modify k f hf).modify k g hg =
      t.modify k (fun r => g (f r)) fun r => (hg (f r)).trans (hf r) := by
  simp only [modify, update, mk.injEq, List.map_map]
  refine List.map_congr_left fun r _ => ?_
  rw [Function.comp_apply]
  by_cases h : key r = k
  · rw [if_pos h, if_pos ((hf r).trans h), if_pos h]
  · rw [if_neg h, if_neg h, if_neg h]

end Table

end Sql
