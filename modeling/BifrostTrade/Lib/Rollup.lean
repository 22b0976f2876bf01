import BifrostTrade.Lib.Python
import Mathlib.Algebra.BigOperators.Group.List.Basic

/-!
# Roll-ups

Totals in a dictionary: `totals[key(a)] += f(a)` over a list.  Every key has one entry, that of the
elements with the key (`mem_rollup`), and the entries add up to the total of the list
(`sum_rollup`), however the keys divide it.
-/

namespace Py

/-- The sum from the left in which each addition is rounded. -/
def sumWith (rnd : ℚ → ℚ) (l : List ℚ) : ℚ := l.foldl (fun s x => rnd (s + x)) 0

@[simp] theorem sumWith_id (l : List ℚ) : sumWith id l = l.sum :=
  List.sum_eq_foldl.symm

variable {α κ M : Type*} [DecidableEq κ] [AddCommMonoid M]

/-- `totals[key(a)] += f(a)` over a list, the keys in the order they came in. -/
def rollup (key : α → κ) (f : α → M) (l : List α) : List (κ × M) :=
  (groupBy key l).map fun g => (g.1, (g.2.map f).sum)

theorem mem_rollup {key : α → κ} {f : α → M} {l : List α} {x : κ × M} :
    x ∈ rollup key f l ↔
      x.1 ∈ l.map key ∧ x.2 = ((l.filter fun a => key a = x.1).map f).sum := by
  obtain ⟨k, m⟩ := x
  simp only [rollup, List.mem_map, Prod.mk.injEq]
  constructor
  · rintro ⟨g, hg, rfl, rfl⟩
    obtain ⟨hkey, hfilter⟩ := mem_groupBy.1 hg
    exact ⟨List.mem_map.1 hkey, by rw [hfilter]⟩
  · rintro ⟨hkey, hm⟩
    exact ⟨(k, l.filter fun a => key a = k), mem_groupBy.2 ⟨List.mem_map.2 hkey, rfl⟩, rfl, hm.symm⟩

/-- Over different keys that cover the list, the parts of the keys add up to the whole. -/
theorem sum_filter_keys (key : α → κ) (f : α → M) (l : List α) {ks : List κ} (hnd : ks.Nodup)
    (hks : l.map key ⊆ ks) :
    (ks.map fun k => ((l.filter fun a => key a = k).map f).sum).sum = (l.map f).sum := by
  induction l with
  | nil => simp
  | cons a l ih =>
    rw [List.map_cons, List.cons_subset] at hks
    have hpart : ∀ k, (((a :: l).filter fun a => key a = k).map f).sum =
        (if k = key a then f a else 0) + ((l.filter fun a => key a = k).map f).sum := by
      intro k
      by_cases hk : key a = k
      · rw [List.filter_cons_of_pos (by simpa using hk), if_pos hk.symm, List.map_cons,
          List.sum_cons]
      · rw [List.filter_cons_of_neg (by simpa using hk), if_neg (Ne.symm hk), zero_add]
    have hone : (ks.map fun k => if k = key a then f a else 0).sum = f a := by
      rw [List.sum_map_eq_nsmul_single (key a) _ fun k hk _ => if_neg hk,
        List.count_eq_one_of_mem hnd hks.1, one_nsmul, if_pos rfl]
    simp only [hpart]
    rw [List.sum_map_add, hone, ih hks.2, List.map_cons, List.sum_cons]

/-- The entries add up to the total of the list. -/
theorem sum_rollup (key : α → κ) (f : α → M) (l : List α) :
    ((rollup key f l).map Prod.snd).sum = (l.map f).sum := by
  rw [rollup, groupBy, List.map_map, List.map_map]
  exact sum_filter_keys key f l (firstSeen_nodup _) fun k hk => mem_firstSeen.2 hk

/-- Where every element has one key there is no more than its entry. -/
theorem rollup_of_forall_key {key : α → κ} {l : List α} {k : κ} (h : ∀ a ∈ l, key a = k)
    (f : α → M) : rollup key f l = if l = [] then [] else [(k, (l.map f).sum)] := by
  split_ifs with hnil
  · rw [hnil]
    rfl
  · have hkeys : firstSeen (l.map key) = [k] := by
      have hmap : l.map key = List.replicate l.length k :=
        List.eq_replicate_iff.2 ⟨List.length_map _, fun k' hk' => by
          obtain ⟨a, ha, rfl⟩ := List.mem_map.1 hk'
          exact h a ha⟩
      have hlength : l.length ≠ 0 := fun h0 => hnil (List.length_eq_zero_iff.1 h0)
      rw [hmap, firstSeen, List.reverse_replicate, List.replicate_dedup hlength]
      rfl
    have hall : (l.filter fun a => key a = k) = l :=
      List.filter_eq_self.2 fun a ha => decide_eq_true (h a ha)
    rw [rollup, groupBy, hkeys, List.map_singleton, List.map_singleton, hall]

/-- Pairs are different where the second parts are, under each first part. -/
theorem nodup_map_pair {β : Type*} (f : α → κ) (g : α → β) {l : List α}
    (h : ∀ k, ((l.filter fun a => f a = k).map g).Nodup) : (l.map fun a => (f a, g a)).Nodup := by
  induction l with
  | nil => exact List.nodup_nil
  | cons a l ih =>
    have htail : ∀ k, ((l.filter fun b => f b = k).map g).Nodup := fun k =>
      (h k).sublist (((List.sublist_cons_self a l).filter _).map g)
    refine List.nodup_cons.2 ⟨fun hmem => ?_, ih htail⟩
    obtain ⟨b, hb, hpair⟩ := List.mem_map.1 hmem
    obtain ⟨hf, hg⟩ := Prod.mk.inj hpair
    have hhead := h (f a)
    rw [List.filter_cons_of_pos (by simp), List.map_cons, List.nodup_cons] at hhead
    exact hhead.1 (List.mem_map.2 ⟨b, List.mem_filter.2 ⟨hb, decide_eq_true hf⟩, hg⟩)

end Py
