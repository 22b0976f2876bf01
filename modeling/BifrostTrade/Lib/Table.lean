import Mathlib.Data.List.Nodup
import Mathlib.Data.List.Pairwise

/-!
# Tables

A database table whose rows have different keys, with the statements that keep it so: insert or
update, insert or ignore, delete.  A table under several unique indexes is a `Store`: no two of its
rows clash, and a statement that would make two rows clash fails.
-/

namespace Sql

variable {ρ κ : Type*} {key : ρ → κ}

/-- Rows, no two with the same key. -/
structure Table (key : ρ → κ) where
  rows : List ρ
  nodup : (rows.map key).Nodup

namespace Table

/-- No rows. -/
def empty : Table key := ⟨[], List.nodup_nil⟩

@[simp] theorem rows_empty : (empty : Table key).rows = [] := rfl

/-- A key belongs to one row. -/
theorem eq_of_key (t : Table key) {r s : ρ} (hr : r ∈ t.rows) (hs : s ∈ t.rows)
    (h : key r = key s) : r = s :=
  List.inj_on_of_nodup_map t.nodup hr hs h

/-- `DELETE … WHERE p`. -/
def delete (t : Table key) (p : ρ → Bool) : Table key where
  rows := t.rows.filter fun r => !p r
  nodup := t.nodup.sublist (List.filter_sublist.map key)

theorem mem_delete {t : Table key} {p : ρ → Bool} {r : ρ} :
    r ∈ (t.delete p).rows ↔ r ∈ t.rows ∧ p r = false := by
  simp [delete]

/-- A statement that changes rows and none of the keys. -/
def update (t : Table key) (f : ρ → ρ) (hf : ∀ r, key (f r) = key r) : Table key where
  rows := t.rows.map f
  nodup := by
    have hkeys : (t.rows.map f).map key = t.rows.map key := by
      rw [List.map_map]
      exact List.map_congr_left fun r _ => hf r
    exact hkeys ▸ t.nodup

variable [DecidableEq κ]

/-- Whether a row with this key is stored. -/
def hasKey (t : Table key) (k : κ) : Bool := t.rows.any fun r => key r = k

theorem hasKey_iff {t : Table key} {k : κ} : t.hasKey k = true ↔ ∃ r ∈ t.rows, key r = k := by
  simp [hasKey]

theorem hasKey_eq_false {t : Table key} {k : κ} :
    t.hasKey k = false ↔ ∀ r ∈ t.rows, key r ≠ k := by
  simp [hasKey]

/-- `INSERT … ON CONFLICT DO NOTHING`. -/
def insertOrIgnore (t : Table key) (new : ρ) : Table key :=
  if h : t.hasKey (key new) = false then
    { rows := t.rows ++ [new]
      nodup := by
        rw [hasKey_eq_false] at h
        rw [List.map_append, List.nodup_append]
        refine ⟨t.nodup, List.nodup_singleton _, ?_⟩
        intro a ha b hb
        obtain ⟨r, hr, rfl⟩ := List.mem_map.1 ha
        have hb : b = key new := by simpa using hb
        exact hb ▸ h r hr }
  else t

theorem mem_insertOrIgnore {t : Table key} {new r : ρ} :
    r ∈ (t.insertOrIgnore new).rows ↔ r ∈ t.rows ∨ t.hasKey (key new) = false ∧ r = new := by
  unfold insertOrIgnore
  split
  case isTrue h => simp [h]
  case isFalse h => simp [h]

/-- `INSERT … ON CONFLICT (key) DO UPDATE`: a stored row with the new one's key is merged. -/
def upsert (t : Table key) (new : ρ) (merge : ρ → ρ) (hmerge : ∀ r, key (merge r) = key r) :
    Table key :=
  if t.hasKey (key new) then
    t.update (fun r => if key r = key new then merge r else r) fun r => by
      split
      · exact hmerge r
      · rfl
  else t.insertOrIgnore new

theorem mem_upsert {t : Table key} {new r : ρ} {merge : ρ → ρ}
    {hmerge : ∀ r, key (merge r) = key r} :
    r ∈ (t.upsert new merge hmerge).rows ↔
      (r ∈ t.rows ∧ key r ≠ key new) ∨ (∃ old ∈ t.rows, key old = key new ∧ r = merge old) ∨
        t.hasKey (key new) = false ∧ r = new := by
  unfold upsert
  by_cases h : t.hasKey (key new) = true
  · simp only [h, if_true, update, List.mem_map]
    constructor
    · rintro ⟨old, hold, rfl⟩
      by_cases hk : key old = key new
      · exact .inr (.inl ⟨old, hold, hk, if_pos hk⟩)
      · rw [if_neg hk]
        exact .inl ⟨hold, hk⟩
    · rintro (⟨hr, hk⟩ | ⟨old, hold, hk, rfl⟩ | ⟨h', -⟩)
      · exact ⟨r, hr, if_neg hk⟩
      · exact ⟨old, hold, if_pos hk⟩
      · exact absurd h' (by simp)
  · rw [Bool.not_eq_true] at h
    rw [if_neg (by simp [h]), mem_insertOrIgnore]
    rw [hasKey_eq_false] at h
    constructor
    · rintro (hr | hr)
      · exact .inl ⟨hr, h r hr⟩
      · exact .inr (.inr hr)
    · rintro (⟨hr, -⟩ | ⟨old, hold, hk, -⟩ | hr)
      · exact .inl hr
      · exact absurd hk (h old hold)
      · exact .inr hr

/-- The row stored under a key. -/
def get (t : Table key) (k : κ) : Option ρ := t.rows.find? fun r => key r = k

theorem get_eq_some_iff {t : Table key} {k : κ} {r : ρ} :
    t.get k = some r ↔ r ∈ t.rows ∧ key r = k := by
  constructor
  · intro h
    exact ⟨List.mem_of_find?_eq_some h, by simpa using List.find?_some h⟩
  · rintro ⟨hr, rfl⟩
    cases hget : t.get (key r) with
    | none => exact absurd (List.find?_eq_none.1 hget r hr) (by simp)
    | some s =>
      have hs : key s = key r := by simpa using List.find?_some hget
      rw [t.eq_of_key (List.mem_of_find?_eq_some hget) hr hs]

theorem get_eq_none_iff {t : Table key} {k : κ} : t.get k = none ↔ ∀ r ∈ t.rows, key r ≠ k := by
  simp [get]

theorem get_delete {t : Table key} {p : ρ → Bool} {k : κ} :
    (t.delete p).get k = (t.get k).filter fun r => !p r := by
  refine Option.ext fun r => ?_
  rw [get_eq_some_iff, mem_delete, Option.filter_eq_some_iff, get_eq_some_iff, Bool.not_eq_true',
    and_right_comm]

theorem get_update {t : Table key} {f : ρ → ρ} {hf : ∀ r, key (f r) = key r} {k : κ} :
    (t.update f hf).get k = (t.get k).map f := by
  unfold get update
  rw [List.find?_map]
  simp only [Function.comp_def, hf]

/-- What is stored under each key after an upsert. -/
theorem get_upsert {t : Table key} {new : ρ} {merge : ρ → ρ}
    {hmerge : ∀ r, key (merge r) = key r} {k : κ} :
    (t.upsert new merge hmerge).get k =
      if key new = k then some ((t.get k).elim new merge) else t.get k := by
  refine Option.ext fun r => ?_
  rw [get_eq_some_iff, mem_upsert]
  split_ifs with hk
  · subst hk
    rw [Option.some.injEq]
    cases hget : t.get (key new) with
    | none =>
      have hfree := get_eq_none_iff.1 hget
      have hkey : t.hasKey (key new) = false := hasKey_eq_false.2 hfree
      constructor
      · rintro ⟨(⟨hr, -⟩ | ⟨old, hold, hkold, -⟩ | ⟨-, rfl⟩), hkr⟩
        · exact absurd hkr (hfree r hr)
        · exact absurd hkold (hfree old hold)
        · rfl
      · rintro rfl
        exact ⟨.inr (.inr ⟨hkey, rfl⟩), rfl⟩
    | some old =>
      obtain ⟨hold, hkold⟩ := get_eq_some_iff.1 hget
      have hkey : t.hasKey (key new) = true := hasKey_iff.2 ⟨old, hold, hkold⟩
      constructor
      · rintro ⟨(⟨-, hne⟩ | ⟨old', hold', hkold', rfl⟩ | ⟨hfree, -⟩), hkr⟩
        · exact absurd hkr hne
        · rw [t.eq_of_key hold' hold (hkold'.trans hkold.symm)]
          rfl
        · rw [hkey] at hfree
          cases hfree
      · rintro rfl
        exact ⟨.inr (.inl ⟨old, hold, hkold, rfl⟩), (hmerge old).trans hkold⟩
  · rw [get_eq_some_iff]
    constructor
    · rintro ⟨(⟨hr, -⟩ | ⟨old, -, hkold, rfl⟩ | ⟨-, rfl⟩), hkr⟩
      · exact ⟨hr, hkr⟩
      · exact absurd ((hmerge old).symm.trans hkr ▸ hkold.symm) hk
      · exact absurd hkr hk
    · rintro ⟨hr, rfl⟩
      exact ⟨.inl ⟨hr, fun h => hk h.symm⟩, rfl⟩

/-- Inserts one after another, with the number of rows that went in. -/
def insertAllOrIgnore (t : Table key) (new : List ρ) : Table key × ℕ :=
  new.foldl (fun (t, n) r => (t.insertOrIgnore r, if t.hasKey (key r) then n else n + 1)) (t, 0)

theorem mem_of_mem_insertAllOrIgnore {t : Table key} {new : List ρ} {r : ρ}
    (h : r ∈ (t.insertAllOrIgnore new).1.rows) : r ∈ t.rows ∨ r ∈ new := by
  unfold insertAllOrIgnore at h
  generalize 0 = n at h
  induction new generalizing t n with
  | nil => exact .inl h
  | cons a new ih =>
    rcases ih _ h with hr | hr
    · rcases mem_insertOrIgnore.1 hr with hr | ⟨-, rfl⟩
      · exact .inl hr
      · exact .inr (List.mem_cons_self ..)
    · exact .inr (List.mem_cons_of_mem _ hr)

/-- Inserts take no row away. -/
theorem mem_insertAllOrIgnore_of_mem {t : Table key} {new : List ρ} {r : ρ} (hr : r ∈ t.rows) :
    r ∈ (t.insertAllOrIgnore new).1.rows := by
  unfold insertAllOrIgnore
  generalize 0 = n
  induction new generalizing t n with
  | nil => exact hr
  | cons a new ih => exact ih (mem_insertOrIgnore.2 (.inl hr)) _

theorem filter_insertOrIgnore {t : Table key} {new : ρ} {q : ρ → Bool} (hq : q new = false) :
    (t.insertOrIgnore new).rows.filter q = t.rows.filter q := by
  unfold insertOrIgnore
  split
  · simp [List.filter_append, hq]
  · rfl

/-- Inserts leave the rows they do not bring in. -/
theorem filter_insertAllOrIgnore {t : Table key} {new : List ρ} {q : ρ → Bool}
    (hq : ∀ r ∈ new, q r = false) :
    (t.insertAllOrIgnore new).1.rows.filter q = t.rows.filter q := by
  unfold insertAllOrIgnore
  generalize 0 = n
  induction new generalizing t n with
  | nil => rfl
  | cons a new ih =>
    rw [List.foldl_cons, ih fun r hr => hq r (List.mem_cons_of_mem _ hr)]
    exact filter_insertOrIgnore (hq a (List.mem_cons_self ..))

/-- New rows of different keys that no stored row has all go in. -/
theorem count_insertAllOrIgnore {t : Table key} {new : List ρ} (hnd : (new.map key).Nodup)
    (hnew : ∀ r ∈ new, t.hasKey (key r) = false) :
    (t.insertAllOrIgnore new).2 = new.length := by
  suffices hcount : ∀ n, (new.foldl (fun (t, n) r =>
      (insertOrIgnore t r, if t.hasKey (key r) then n else n + 1)) (t, n)).2 = n + new.length by
    exact (hcount 0).trans (Nat.zero_add _)
  induction new generalizing t with
  | nil => exact fun n => rfl
  | cons a new ih =>
    rw [List.map_cons, List.nodup_cons] at hnd
    intro n
    have hrest : ∀ r ∈ new, (t.insertOrIgnore a).hasKey (key r) = false := by
      intro r hr
      refine hasKey_eq_false.2 fun s hs hkey => ?_
      rcases mem_insertOrIgnore.1 hs with hs | ⟨-, rfl⟩
      · exact hasKey_eq_false.1 (hnew r (List.mem_cons_of_mem _ hr)) s hs hkey
      · exact hnd.1 (hkey ▸ List.mem_map_of_mem hr)
    have hfree : ¬ t.hasKey (key a) = true := by simp [hnew a List.mem_cons_self]
    rw [List.foldl_cons, ih hnd.2 hrest]
    rw [if_neg hfree, List.length_cons]
    omega

end Table

/-! ## Several unique indexes -/

variable {clash : ρ → ρ → Prop}

/-- Rows of which no two break a unique index. -/
structure Store (clash : ρ → ρ → Prop) where
  rows : List ρ
  apart : rows.Pairwise fun r s => ¬ clash r s

namespace Store

/-- No rows. -/
def empty : Store clash := ⟨[], List.Pairwise.nil⟩

@[simp] theorem rows_empty : (empty : Store clash).rows = [] := rfl

theorem rows_injective : Function.Injective (rows : Store clash → List ρ) := by
  rintro ⟨r, hr⟩ ⟨s, hs⟩ h
  obtain rfl : r = s := h
  rfl

/-- Two rows of a store do not clash, whichever stands first. -/
theorem eq_of_clash (t : Store clash) (hsymm : ∀ r s, clash r s → clash s r) {r s : ρ}
    (hr : r ∈ t.rows) (hs : s ∈ t.rows) (h : clash r s) : r = s := by
  have : Std.Symm fun a b => ¬ clash a b := ⟨fun a b hab hba => hab (hsymm b a hba)⟩
  by_contra hne
  exact t.apart.forall hr hs hne h

/-- `DELETE … WHERE p`. -/
def delete (t : Store clash) (p : ρ → Bool) : Store clash where
  rows := t.rows.filter fun r => !p r
  apart := t.apart.sublist List.filter_sublist

@[simp] theorem rows_delete (t : Store clash) (p : ρ → Bool) :
    (t.delete p).rows = t.rows.filter fun r => !p r := rfl

variable [DecidableRel clash]

/-- `INSERT`; fails on a row that clashes. -/
def insert? (t : Store clash) (new : ρ) : Option (Store clash) :=
  if h : ∀ r ∈ t.rows, ¬ clash r new then
    some
      { rows := t.rows ++ [new]
        apart := by
          rw [List.pairwise_append]
          refine ⟨t.apart, List.pairwise_singleton _ _, ?_⟩
          intro r hr s hs
          obtain rfl := List.mem_singleton.1 hs
          exact h r hr }
  else none

theorem rows_of_insert? {t t' : Store clash} {new : ρ} (h : t.insert? new = some t') :
    t'.rows = t.rows ++ [new] ∧ ∀ r ∈ t.rows, ¬ clash r new := by
  unfold insert? at h
  split at h
  case isTrue hfree =>
    obtain rfl := Option.some.inj h
    exact ⟨rfl, hfree⟩
  case isFalse => cases h

/-- `UPDATE … WHERE p`; fails when two rows would clash. -/
def update? (t : Store clash) (p : ρ → Bool) (f : ρ → ρ) : Option (Store clash) :=
  let rows := t.rows.map fun r => if p r then f r else r
  if h : rows.Pairwise fun r s => ¬ clash r s then some ⟨rows, h⟩ else none

theorem rows_of_update? {t t' : Store clash} {p : ρ → Bool} {f : ρ → ρ}
    (h : t.update? p f = some t') : t'.rows = t.rows.map fun r => if p r then f r else r := by
  unfold update? at h
  dsimp only at h
  split at h
  · obtain rfl := Option.some.inj h
    rfl
  · cases h

/-- An update succeeds where it changes one row at most and makes it clash with no other. -/
theorem exists_update? {t : Store clash} (hsymm : ∀ r s, clash r s → clash s r) {p : ρ → Bool}
    {f : ρ → ρ} (hone : ∀ r s, p r = true → p s = true → clash r s)
    (hf : ∀ r ∈ t.rows, p r = true → ∀ s ∈ t.rows, p s = false → ¬ clash (f r) s) :
    ∃ t', t.update? p f = some t' := by
  have happart : (t.rows.map fun r => if p r then f r else r).Pairwise fun r s => ¬ clash r s := by
    rw [List.pairwise_map]
    refine t.apart.imp_of_mem fun {r s} hr hs hrs => ?_
    by_cases hpr : p r = true <;> by_cases hps : p s = true
    · exact absurd (hone r s hpr hps) hrs
    · rw [if_pos hpr, if_neg hps]
      exact hf r hr hpr s hs (Bool.not_eq_true _ ▸ hps)
    · rw [if_neg hpr, if_pos hps]
      exact fun h => hf s hs hps r hr (Bool.not_eq_true _ ▸ hpr) (hsymm _ _ h)
    · rw [if_neg hpr, if_neg hps]
      exact hrs
  exact ⟨⟨_, happart⟩, dif_pos happart⟩

/-- An update leaves the rows it neither touches nor brings in. -/
theorem filter_of_update? {t t' : Store clash} {p q : ρ → Bool} {f : ρ → ρ}
    (h : t.update? p f = some t') (hq : ∀ r, p r = true → q r = false ∧ q (f r) = false) :
    t'.rows.filter q = t.rows.filter q := by
  have hkeep : (q ∘ fun r => if p r = true then f r else r) = q := by
    funext r
    by_cases hp : p r = true
    · simp [hp, hq r hp]
    · simp [hp]
  rw [rows_of_update? h, List.filter_map, hkeep]
  refine (List.map_congr_left fun r hr => ?_).trans (List.map_id _)
  by_cases hp : p r = true
  · have hr := (List.mem_filter.1 hr).2
    rw [(hq r hp).1] at hr
    cases hr
  · rw [if_neg hp, id]

/-- `INSERT … ON CONFLICT (arbiter) DO UPDATE`: the stored row that the arbiter index finds is
merged; any other index that is broken makes the statement fail. -/
def upsert? (t : Store clash) (p : ρ → Bool) (new : ρ) (merge : ρ → ρ) : Option (Store clash) :=
  if t.rows.any p then t.update? p merge else t.insert? new

theorem mem_of_upsert? {t t' : Store clash} {p : ρ → Bool} {new r : ρ} {merge : ρ → ρ}
    (h : t.upsert? p new merge = some t') :
    r ∈ t'.rows ↔ r ∈ t.rows ∧ p r = false ∨ (∃ old ∈ t.rows, p old = true ∧ r = merge old) ∨
      (∀ s ∈ t.rows, p s = false) ∧ r = new := by
  unfold upsert? at h
  split at h
  case isTrue hany =>
    obtain ⟨s₀, hs₀, hps₀⟩ := List.any_eq_true.1 hany
    rw [rows_of_update? h, List.mem_map]
    constructor
    · rintro ⟨old, hold, rfl⟩
      by_cases hp : p old = true
      · exact .inr (.inl ⟨old, hold, hp, if_pos hp⟩)
      · rw [if_neg hp]
        exact .inl ⟨hold, Bool.not_eq_true _ ▸ hp⟩
    · rintro (⟨hr, hp⟩ | ⟨old, hold, hp, rfl⟩ | ⟨hnone, -⟩)
      · exact ⟨r, hr, by rw [hp]; rfl⟩
      · exact ⟨old, hold, if_pos hp⟩
      · rw [hnone s₀ hs₀] at hps₀
        cases hps₀
  case isFalse hany =>
    have hnone : ∀ s ∈ t.rows, p s = false := fun s hs =>
      Bool.eq_false_iff.2 fun hp => hany (List.any_eq_true.2 ⟨s, hs, hp⟩)
    rw [(rows_of_insert? h).1, List.mem_append, List.mem_singleton]
    constructor
    · rintro (hr | hr)
      · exact .inl ⟨hr, hnone r hr⟩
      · exact .inr (.inr ⟨hnone, hr⟩)
    · rintro (⟨hr, -⟩ | ⟨old, hold, hp, -⟩ | ⟨-, hr⟩)
      · exact .inl hr
      · rw [hnone old hold] at hp
        cases hp
      · exact .inr hr

/-- An upsert succeeds where neither the new row nor a merged one clashes with a row that the
arbiter does not find. -/
theorem exists_upsert? {t : Store clash} (hsymm : ∀ r s, clash r s → clash s r) {p : ρ → Bool}
    {new : ρ} {merge : ρ → ρ} (hone : ∀ r s, p r = true → p s = true → clash r s)
    (hnew : ∀ s ∈ t.rows, p s = false → ¬ clash s new)
    (hmerge : ∀ r ∈ t.rows, p r = true → ∀ s ∈ t.rows, p s = false → ¬ clash (merge r) s) :
    ∃ t', t.upsert? p new merge = some t' := by
  unfold upsert?
  split
  case isTrue => exact exists_update? hsymm hone hmerge
  case isFalse hany =>
    have hfree : ∀ s ∈ t.rows, ¬ clash s new := fun s hs =>
      hnew s hs (Bool.eq_false_iff.2 fun hp => hany (List.any_eq_true.2 ⟨s, hs, hp⟩))
    exact ⟨_, dif_pos hfree⟩

end Store

end Sql
