import BifrostTrade.Lib.Dict
import Mathlib.Data.List.Nodup

/-!
# Redis hashes

`HSET` and `HDEL` on the fields of a hash, and what a lookup of a field finds after them.
-/

namespace RedisHash

/-- The fields of a hash with their values. -/
abbrev Hash := List (String × String)

/-- `HSET`. -/
def hset (h mapping : Hash) : Hash := mapping ++ h.filter fun f => f.1 ∉ mapping.map Prod.fst

/-- `HDEL`. -/
def hdel (h : Hash) (fields : List String) : Hash := h.filter fun f => f.1 ∉ fields

variable {α : Type}

/-- A field that is filtered by its name is found or is not there. -/
theorem lookup_filter (p : String → Bool) (l : List (String × α)) (key : String) :
    (l.filter fun f => p f.1).lookup key = if p key then l.lookup key else none := by
  induction l with
  | nil => simp
  | cons f l ih =>
    rw [List.filter_cons, Dict.lookup_cons_ite]
    by_cases hp : p f.1 = true
    · rw [if_pos hp, Dict.lookup_cons_ite, ih]
      by_cases hkey : key = f.1
      · simp [hkey, hp]
      · simp [hkey]
    · rw [if_neg hp, ih]
      by_cases hkey : key = f.1
      · simp [hkey, hp]
      · simp [hkey]

theorem lookup_eq_none_iff {l : List (String × α)} {key : String} :
    l.lookup key = none ↔ key ∉ l.map Prod.fst := by
  simp only [List.lookup_eq_none_iff, bne_iff_ne, List.mem_map, not_exists, not_and]
  exact forall₂_congr fun f _ => ne_comm

/-- After a write a field is what was written, else what it was. -/
theorem lookup_hset (h mapping : Hash) (key : String) :
    (hset h mapping).lookup key = (mapping.lookup key).or (h.lookup key) := by
  have hfilter := lookup_filter (fun k => k ∉ mapping.map Prod.fst) h key
  rw [hset, List.lookup_append, hfilter]
  by_cases hkey : key ∈ mapping.map Prod.fst
  · have hsome : mapping.lookup key ≠ none := fun hnone => lookup_eq_none_iff.1 hnone hkey
    obtain ⟨v, hv⟩ := Option.ne_none_iff_exists'.1 hsome
    rw [hv]
    rfl
  · rw [if_pos (by simpa using hkey)]

theorem lookup_hdel (h : Hash) (fields : List String) (key : String) :
    (hdel h fields).lookup key = if key ∈ fields then none else h.lookup key := by
  have hfilter := lookup_filter (fun k => k ∉ fields) h key
  rw [hdel, hfilter]
  by_cases hkey : key ∈ fields <;> simp [hkey]

/-- A write keeps the fields apart. -/
theorem nodup_hset {h mapping : Hash} (hh : (h.map Prod.fst).Nodup)
    (hm : (mapping.map Prod.fst).Nodup) : ((hset h mapping).map Prod.fst).Nodup := by
  rw [hset, List.map_append]
  refine hm.append (hh.sublist (List.filter_sublist.map _)) fun key hkey hrest => ?_
  obtain ⟨f, hf, rfl⟩ := List.mem_map.1 hrest
  exact of_decide_eq_true (List.mem_filter.1 hf).2 hkey

/-- Where the fields are apart an entry is what a lookup finds. -/
theorem lookup_of_mem {l : List (String × α)} (hl : (l.map Prod.fst).Nodup) {f : String × α}
    (hf : f ∈ l) : l.lookup f.1 = some f.2 := by
  induction l with
  | nil => cases hf
  | cons g l ih =>
    rw [List.map_cons, List.nodup_cons] at hl
    rcases List.mem_cons.1 hf with rfl | hf
    · rw [List.lookup_cons, beq_self_eq_true]
    · have hne : f.1 ≠ g.1 := fun heq => hl.1 (heq ▸ List.mem_map_of_mem hf)
      rw [List.lookup_cons, beq_false_of_ne hne]
      exact ih hl.2 hf

end RedisHash
