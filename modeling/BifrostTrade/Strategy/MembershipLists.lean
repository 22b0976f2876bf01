import BifrostTrade.Strategy.AllocationWrite
import Mathlib.Data.List.Dedup

/-!
# The list of an allocation

A list that is written is read back in its order, with every opportunity at the last of its places:
the later insert of a pair moves the row that is there.
-/

namespace Strategy

open Py Sql

/-! ## Last places -/

/-- Of every key the last place. -/
def lastPlaces : List (ℤ × ℕ) → List (ℤ × ℕ)
  | [] => []
  | (o, i) :: places => if o ∈ places.map Prod.fst then lastPlaces places
      else (o, i) :: lastPlaces places

theorem mem_lastPlaces_snoc {places : List (ℤ × ℕ)} {o : ℤ} {i : ℕ} {p : ℤ × ℕ} :
    p ∈ lastPlaces (places ++ [(o, i)]) ↔ (p ∈ lastPlaces places ∧ p.1 ≠ o) ∨ p = (o, i) := by
  induction places with
  | nil => simp [lastPlaces]
  | cons q places ih =>
    obtain ⟨o', j⟩ := q
    rw [List.cons_append, lastPlaces, lastPlaces]
    by_cases hmem : o' ∈ places.map Prod.fst
    · rw [if_pos hmem, if_pos (by simp_all), ih]
    · rw [if_neg hmem]
      by_cases hlast : o' = o
      · subst hlast
        rw [if_pos (by simp), ih, List.mem_cons]
        constructor
        · exact fun h => h.imp_left fun h => ⟨.inr h.1, h.2⟩
        · rintro (⟨rfl | h, hne⟩ | h)
          · exact absurd rfl hne
          · exact .inl ⟨h, hne⟩
          · exact .inr h
      · rw [if_neg (by simp_all), List.mem_cons, List.mem_cons, ih]
        constructor
        · rintro (rfl | h | h)
          · exact .inl ⟨.inl rfl, hlast⟩
          · exact .inl ⟨.inr h.1, h.2⟩
          · exact .inr h
        · rintro (⟨rfl | h, hne⟩ | h)
          · exact .inl rfl
          · exact .inr (.inl ⟨h, hne⟩)
          · exact .inr (.inr h)

/-- The keys in the order of their last places. -/
theorem lastPlaces_keys (places : List (ℤ × ℕ)) :
    (lastPlaces places).map Prod.fst = (places.map Prod.fst).dedup := by
  induction places with
  | nil => rfl
  | cons p places ih =>
    obtain ⟨o, i⟩ := p
    rw [lastPlaces, List.map_cons]
    split
    · rename_i h
      rw [List.dedup_cons_of_mem h, ih]
    · rename_i h
      rw [List.dedup_cons_of_notMem h, List.map_cons, ih]

theorem lastPlaces_sublist (places : List (ℤ × ℕ)) : (lastPlaces places).Sublist places := by
  induction places with
  | nil => exact List.Sublist.slnil
  | cons p places ih =>
    obtain ⟨o, i⟩ := p
    rw [lastPlaces]
    split
    · exact ih.cons _
    · exact ih.cons_cons _

/-! ## Rows of an allocation -/

/-- The rows of one allocation. -/
def membersOf (t : Table Membership.key) (a : ℤ) : List Membership :=
  t.rows.filter fun x => x.allocationId = a

theorem mem_membersOf {t : Table Membership.key} {a : ℤ} {x : Membership} :
    x ∈ membersOf t a ↔ x ∈ t.rows ∧ x.allocationId = a := by
  rw [membersOf, List.mem_filter, decide_eq_true_eq]

/-- One insert: the row of the opportunity moves, or comes in. -/
theorem mem_putMembership {t : Table Membership.key} {a o : ℤ} {i : ℕ} {x : Membership} :
    x ∈ (putMembership t ⟨a, o, i⟩).rows ↔
      (x ∈ t.rows ∧ x.key ≠ (a, o)) ∨ x = ⟨a, o, i⟩ := by
  refine Table.mem_upsert.trans ?_
  have hmoved : ∀ old : Membership, old.key = (a, o) → { old with sortOrder := i } =
      (⟨a, o, i⟩ : Membership) := by
    rintro ⟨a', o', j⟩ hkey
    obtain ⟨rfl, rfl⟩ := Prod.mk.inj hkey
    rfl
  constructor
  · rintro (h | ⟨old, -, hkey, rfl⟩ | ⟨-, rfl⟩)
    · exact .inl h
    · exact .inr (hmoved old hkey)
    · exact .inr rfl
  · rintro (h | rfl)
    · exact .inl h
    · by_cases hkey : t.hasKey (a, o) = true
      · obtain ⟨old, hold, heq⟩ := Table.hasKey_iff.1 hkey
        exact .inr (.inl ⟨old, hold, heq, (hmoved old heq).symm⟩)
      · exact .inr (.inr ⟨Bool.not_eq_true _ ▸ hkey, rfl⟩)

/-- The rows of an allocation that had none, after its list was put. -/
theorem mem_putMemberships {t : Table Membership.key} {a : ℤ} (hfree : membersOf t a = [])
    (places : List (ℤ × ℕ)) {x : Membership} :
    x ∈ membersOf (places.foldl (fun t p => putMembership t ⟨a, p.1, p.2⟩) t) a ↔
      x.allocationId = a ∧ (x.opportunityId, x.sortOrder) ∈ lastPlaces places := by
  induction places using List.reverseRecOn generalizing x with
  | nil => simp [lastPlaces, hfree]
  | append_singleton places p ih =>
    obtain ⟨o, i⟩ := p
    simp only [mem_membersOf] at ih ⊢
    rw [List.foldl_append, List.foldl_cons, List.foldl_nil, mem_putMembership, mem_lastPlaces_snoc]
    constructor
    · rintro ⟨⟨hx, hkey⟩ | rfl, ha⟩
      · refine ⟨ha, .inl ⟨(ih.1 ⟨hx, ha⟩).2, fun ho => hkey ?_⟩⟩
        exact Prod.ext ha ho
      · exact ⟨rfl, .inr rfl⟩
    · rintro ⟨ha, ⟨hx, ho⟩ | hx⟩
      · exact ⟨.inl ⟨(ih.2 ⟨ha, hx⟩).1, fun hkey => ho (congrArg Prod.snd hkey)⟩, ha⟩
      · obtain ⟨rfl, rfl⟩ := Prod.mk.inj hx
        exact ⟨.inr (by rw [← ha]), ha⟩

/-- The rows of another allocation stay as they are. -/
theorem membersOf_putMembership {t : Table Membership.key} {a b : ℤ} (hne : b ≠ a) (o : ℤ) (i : ℕ) :
    membersOf (putMembership t ⟨a, o, i⟩) b = membersOf t b := by
  refine Table.filter_upsert fun x hx => decide_eq_false fun hb => hne ?_
  rw [← hb]
  exact congrArg Prod.fst hx

theorem membersOf_foldl {t : Table Membership.key} {a b : ℤ} (hne : b ≠ a)
    (places : List (ℤ × ℕ)) :
    membersOf (places.foldl (fun t p => putMembership t ⟨a, p.1, p.2⟩) t) b = membersOf t b := by
  induction places generalizing t with
  | nil => rfl
  | cons p places ih => rw [List.foldl_cons, ih, membersOf_putMembership hne]

/-- An allocation's list of its own, and the others' as they were. -/
theorem membersOf_replace_of_ne {t : Table Membership.key} {a b : ℤ} (hne : b ≠ a)
    (ids : List ℤ) : membersOf (replaceMemberships t a ids) b = membersOf t b := by
  refine (membersOf_foldl hne ids.zipIdx).trans ?_
  unfold membersOf
  rw [Table.delete, List.filter_filter]
  refine List.filter_congr fun x _ => ?_
  by_cases hb : x.allocationId = b
  · simp [hb, hne]
  · simp [hb]

theorem mem_membersOf_replace {t : Table Membership.key} {a : ℤ} {ids : List ℤ} {x : Membership} :
    x ∈ membersOf (replaceMemberships t a ids) a ↔
      x.allocationId = a ∧ (x.opportunityId, x.sortOrder) ∈ lastPlaces ids.zipIdx := by
  refine mem_putMemberships ?_ ids.zipIdx
  refine List.filter_eq_nil_iff.2 fun x hx => ?_
  have hgone := (Table.mem_delete.1 hx).2
  simpa using hgone

theorem lastPlaces_zipIdx_pairwise (ids : List ℤ) :
    (lastPlaces ids.zipIdx).Pairwise fun p q => p.2 < q.2 :=
  (zipIdx_pairwise ids).sublist (lastPlaces_sublist _)

/-- The rows of a list that was written, in their order. -/
def writtenRows (a : ℤ) (ids : List ℤ) : List Membership :=
  (lastPlaces ids.zipIdx).map fun p => ⟨a, p.1, p.2⟩

theorem writtenRows_pairwise (a : ℤ) (ids : List ℤ) :
    (writtenRows a ids).Pairwise fun x y => x.sortOrder < y.sortOrder :=
  List.pairwise_map.2 (lastPlaces_zipIdx_pairwise ids)

theorem membersOf_replace_perm (t : Table Membership.key) (a : ℤ) (ids : List ℤ) :
    (membersOf (replaceMemberships t a ids) a).Perm (writtenRows a ids) := by
  have hnd : (membersOf (replaceMemberships t a ids) a).Nodup :=
    (List.Nodup.of_map _ (replaceMemberships t a ids).nodup).filter _
  have hnd' : (writtenRows a ids).Nodup :=
    (writtenRows_pairwise a ids).imp fun {x y} hlt heq => by rw [heq] at hlt; exact lt_irrefl _ hlt
  refine (List.perm_ext_iff_of_nodup hnd hnd').2 fun x => ?_
  rw [mem_membersOf_replace, writtenRows, List.mem_map]
  constructor
  · rintro ⟨rfl, hx⟩
    exact ⟨_, hx, rfl⟩
  · rintro ⟨p, hp, rfl⟩
    exact ⟨rfl, hp⟩

/-- No two opportunities of a written list stand at one place. -/
theorem ordersApart_written {t : Table Membership.key} {a : ℤ} {ids : List ℤ} {x y : Membership}
    (hx : x ∈ membersOf (replaceMemberships t a ids) a)
    (hy : y ∈ membersOf (replaceMemberships t a ids) a) (h : x.sortOrder = y.sortOrder) :
    x = y := by
  have hnd : ((writtenRows a ids).map Membership.sortOrder).Nodup := by
    refine (List.pairwise_map.2 (writtenRows_pairwise a ids)).imp fun {i j} hlt heq => ?_
    exact lt_irrefl j (heq ▸ hlt)
  have hperm := membersOf_replace_perm t a ids
  exact List.inj_on_of_nodup_map hnd (hperm.mem_iff.1 hx) (hperm.mem_iff.1 hy) h

/-- **What is written is read back**: in the order that was sent, an opportunity that was sent twice
at the last of its places. -/
theorem opportunityIds_replace (t : Table Membership.key) (a : ℤ) (ids : List ℤ) :
    (sortedBy Membership.sortOrder (membersOf (replaceMemberships t a ids) a)).map
      Membership.opportunityId = ids.dedup := by
  have hsorted : sortedBy Membership.sortOrder (writtenRows a ids) = writtenRows a ids :=
    sortedBy_of_pairwise ((writtenRows_pairwise a ids).imp le_of_lt)
  have hrows : sortedBy Membership.sortOrder (membersOf (replaceMemberships t a ids) a) =
      writtenRows a ids :=
    (sortedBy_eq_of_perm (membersOf_replace_perm t a ids) fun x hx y hy =>
      ordersApart_written hx hy).trans hsorted
  rw [hrows, writtenRows, List.map_map]
  have hkeys := lastPlaces_keys ids.zipIdx
  rw [List.zipIdx_map_fst] at hkeys
  exact hkeys

end Strategy
