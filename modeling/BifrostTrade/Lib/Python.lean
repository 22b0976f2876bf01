import Mathlib.Algebra.Order.Archimedean.Basic
import Mathlib.Algebra.Order.Floor.Ring
import Mathlib.Data.List.Dedup
import Mathlib.Data.List.Induction
import Mathlib.Data.List.Sort
import Mathlib.Data.Rat.Floor
import Mathlib.Tactic.Linarith
import Mathlib.Tactic.NormNum
import Mathlib.Tactic.Ring

/-!
# Python values and built-ins

The parts of Python's runtime the model rests on: rounding half to even, numbers that may be
infinite or not a number, the stable sort by a key, and grouping in a dictionary.  Finite floats
are rationals.
-/

namespace Py

/-! ## Rounding -/

/-- `round(x)`: the nearest integer, ties to even. -/
def round (x : ℚ) : ℤ :=
  let k := ⌊x⌋
  if x - k < 1 / 2 then k else if 1 / 2 < x - k then k + 1 else k + k % 2

/-- `round(x, n)`. -/
def roundTo (n : ℕ) (x : ℚ) : ℚ :=
  round (x * 10 ^ n) / 10 ^ n

theorem abs_sub_round_le (x : ℚ) : |x - round x| ≤ 1 / 2 := by
  have hfloor := Int.floor_le x
  have hlt := Int.lt_floor_add_one x
  unfold round
  dsimp only
  rw [abs_le]
  split_ifs with hlow hhigh
  · constructor <;> linarith
  · push_cast
    constructor <;> linarith
  · have hhalf : x - ⌊x⌋ = 1 / 2 := le_antisymm (not_lt.1 hhigh) (not_lt.1 hlow)
    rcases Int.emod_two_eq_zero_or_one ⌊x⌋ with heven | hodd
    · rw [heven]
      push_cast
      constructor <;> linarith
    · rw [hodd]
      push_cast
      constructor <;> linarith

/-- Rounding to `n` decimals moves a number by half a unit of the last at most. -/
theorem abs_roundTo_sub_le (n : ℕ) (x : ℚ) : |roundTo n x - x| ≤ 1 / 2 / 10 ^ n := by
  have hpos : (0 : ℚ) < 10 ^ n := pow_pos (by norm_num) n
  have hdiff : roundTo n x - x = -((x * 10 ^ n - round (x * 10 ^ n)) / 10 ^ n) := by
    rw [roundTo, sub_div, mul_div_cancel_right₀ x hpos.ne']
    ring
  rw [hdiff, abs_neg, abs_div, abs_of_pos hpos]
  exact div_le_div_of_nonneg_right (abs_sub_round_le _) hpos.le

/-- Rounding each of several numbers moves their sum by half a unit for each at most. -/
theorem abs_sum_roundTo_sub_le (n : ℕ) (l : List ℚ) :
    |(l.map (roundTo n)).sum - l.sum| ≤ l.length * (1 / 2 / 10 ^ n) := by
  induction l with
  | nil => simp
  | cons x l ih =>
    have hx := abs_roundTo_sub_le n x
    have hadd := abs_add_le (roundTo n x - x) ((l.map (roundTo n)).sum - l.sum)
    rw [List.map_cons, List.sum_cons, List.sum_cons, List.length_cons, Nat.cast_succ, add_one_mul,
      add_sub_add_comm]
    linarith

/-! ## Floats that need not be finite -/

/-- A float: finite, infinite or not a number. -/
inductive Double where
  | fin (x : ℚ)
  | posInf
  | negInf
  | nan
  deriving DecidableEq, Repr

namespace Double

/-- `math.isfinite`. -/
def isFinite : Double → Bool
  | fin _ => true
  | _ => false

/-- `abs(x)`. -/
def abs : Double → Double
  | fin x => fin |x|
  | nan => nan
  | _ => posInf

/-- `-x`. -/
def neg : Double → Double
  | fin x => fin (-x)
  | posInf => negInf
  | negInf => posInf
  | nan => nan

/-- `math.isinf`. -/
def isInf : Double → Bool
  | posInf => true
  | negInf => true
  | _ => false

/-- `int(x)`, towards zero; `none` where it raises. -/
def toInt : Double → Option ℤ
  | fin x => some (if x < 0 then ⌈x⌉ else ⌊x⌋)
  | _ => none

end Double

/-! ## Sorting -/

section Sorting

variable {α κ : Type*} [LinearOrder κ]

/-- `sorted(l, key=key)`; the sort is stable. -/
def sortedBy (key : α → κ) (l : List α) : List α :=
  l.insertionSort fun a b => key a ≤ key b

theorem sortedBy_perm (key : α → κ) (l : List α) : (sortedBy key l).Perm l :=
  List.perm_insertionSort _ l

@[simp] theorem mem_sortedBy {key : α → κ} {l : List α} {a : α} :
    a ∈ sortedBy key l ↔ a ∈ l :=
  (sortedBy_perm key l).mem_iff

theorem sortedBy_pairwise (key : α → κ) (l : List α) :
    (sortedBy key l).Pairwise fun a b => key a ≤ key b := by
  have : Std.Total fun a b : α => key a ≤ key b := ⟨fun a b => le_total (key a) (key b)⟩
  have : IsTrans α fun a b : α => key a ≤ key b := ⟨fun _ _ _ => le_trans⟩
  exact List.pairwise_insertionSort _ l

theorem sortedBy_of_pairwise {key : α → κ} {l : List α}
    (h : l.Pairwise fun a b => key a ≤ key b) : sortedBy key l = l := by
  induction l with
  | nil => rfl
  | cons a l ih =>
    rw [List.pairwise_cons] at h
    have htail : l.insertionSort (fun a b => key a ≤ key b) = l := ih h.2
    rw [sortedBy, List.insertionSort_cons, htail]
    cases l with
    | nil => rfl
    | cons b l =>
      exact List.orderedInsert_cons_of_le (r := fun a b => key a ≤ key b) l
        (h.1 b (List.mem_cons_self ..))

theorem filter_orderedInsert (key : α → κ) (p : α → Bool) (a : α) {l : List α}
    (h : l.Pairwise fun a b => key a ≤ key b) :
    (l.orderedInsert (fun a b => key a ≤ key b) a).filter p =
      if p a then (l.filter p).orderedInsert (fun a b => key a ≤ key b) a else l.filter p := by
  induction l with
  | nil => by_cases ha : p a = true <;> simp [ha]
  | cons b l ih =>
    rw [List.pairwise_cons] at h
    have ih := ih h.2
    by_cases hab : key a ≤ key b
    · rw [List.orderedInsert_cons_of_le (r := fun a b => key a ≤ key b) _ hab]
      by_cases ha : p a = true
      · -- `a` stays in front of whatever is kept of `b :: l`
        have hfront : ∀ c ∈ (b :: l).filter p, key a ≤ key c := by
          intro c hc
          rcases List.mem_cons.1 (List.mem_of_mem_filter hc) with rfl | hc
          exacts [hab, hab.trans (h.1 c hc)]
        rw [if_pos ha, List.filter_cons_of_pos ha]
        cases hk : (b :: l).filter p with
        | nil => rfl
        | cons c cs =>
          rw [List.orderedInsert_cons_of_le (r := fun a b => key a ≤ key b) _
            (hfront c (hk ▸ List.mem_cons_self ..))]
      · rw [if_neg ha, List.filter_cons_of_neg ha]
    · rw [List.orderedInsert_of_not_le (r := fun a b => key a ≤ key b) _ hab]
      by_cases hb : p b = true
      · rw [List.filter_cons_of_pos hb, ih, List.filter_cons_of_pos hb,
          List.orderedInsert_of_not_le (r := fun a b => key a ≤ key b) _ hab]
        split_ifs <;> rfl
      · rw [List.filter_cons_of_neg hb, ih, List.filter_cons_of_neg hb]

/-- Sorting commutes with leaving elements out. -/
theorem filter_sortedBy (key : α → κ) (p : α → Bool) (l : List α) :
    (sortedBy key l).filter p = sortedBy key (l.filter p) := by
  induction l with
  | nil => rfl
  | cons a l ih =>
    have hstep : (sortedBy key (a :: l)).filter p =
        if p a then ((sortedBy key l).filter p).orderedInsert (fun a b => key a ≤ key b) a
          else (sortedBy key l).filter p :=
      filter_orderedInsert key p a (sortedBy_pairwise key l)
    rw [hstep, ih]
    by_cases ha : p a = true
    · rw [if_pos ha, List.filter_cons_of_pos ha]
      rfl
    · rw [if_neg ha, List.filter_cons_of_neg ha]

theorem sortedBy_map {β : Type*} (key : β → κ) (f : α → β) (l : List α) :
    sortedBy key (l.map f) = (sortedBy (fun a => key (f a)) l).map f :=
  (List.map_insertionSort _ _ f l fun _ _ _ _ => Iff.rfl).symm

/-- A strictly monotone key sorts as the elements themselves. -/
theorem sortedBy_of_strictMono [LinearOrder α] {key : α → κ} (h : StrictMono key) (l : List α) :
    sortedBy key l = sortedBy id l := by
  simp only [sortedBy, h.le_iff_le, id]

/-- Where the keys tell the elements apart the order of the input does not matter. -/
theorem sortedBy_eq_of_perm {key : α → κ} {l l' : List α} (h : l.Perm l')
    (hinj : ∀ a ∈ l, ∀ b ∈ l, key a = key b → a = b) : sortedBy key l = sortedBy key l' := by
  refine List.Perm.eq_of_pairwise (fun a b ha hb hab hba => ?_) (sortedBy_pairwise key l)
    (sortedBy_pairwise key l')
    ((sortedBy_perm key l).trans (h.trans (sortedBy_perm key l').symm))
  exact hinj a (mem_sortedBy.1 ha) b (h.mem_iff.2 (mem_sortedBy.1 hb)) (le_antisymm hab hba)

theorem orderedInsert_congr {r r' : α → α → Prop} [DecidableRel r] [DecidableRel r'] {a : α}
    {l : List α} (h : ∀ b ∈ l, r a b ↔ r' a b) : l.orderedInsert r a = l.orderedInsert r' a := by
  induction l with
  | nil => rfl
  | cons b l ih =>
    rw [List.orderedInsert_cons, List.orderedInsert_cons,
      ih fun c hc => h c (List.mem_cons_of_mem _ hc)]
    exact if_congr (h b (List.mem_cons_self ..)) rfl rfl

/-- Keys that order the elements of a list alike sort it alike. -/
theorem sortedBy_congr {κ' : Type*} [LinearOrder κ'] {key : α → κ} {key' : α → κ'} {l : List α}
    (h : ∀ a ∈ l, ∀ b ∈ l, key a ≤ key b ↔ key' a ≤ key' b) : sortedBy key l = sortedBy key' l := by
  induction l with
  | nil => rfl
  | cons a l ih =>
    have htail : sortedBy key l = sortedBy key' l := ih fun b hb c hc =>
      h b (List.mem_cons_of_mem _ hb) c (List.mem_cons_of_mem _ hc)
    show (sortedBy key l).orderedInsert (fun a b => key a ≤ key b) a =
      (sortedBy key' l).orderedInsert (fun a b => key' a ≤ key' b) a
    rw [htail]
    exact orderedInsert_congr fun b hb =>
      h a (List.mem_cons_self ..) b (List.mem_cons_of_mem _ (mem_sortedBy.1 hb))

/-- A sorted list is what satisfies a downward closed condition, then the rest. -/
theorem filter_append_filter_not {R : α → α → Prop} {p : α → Bool} {l : List α}
    (h : l.Pairwise R) (hp : ∀ a b, R a b → p b = true → p a = true) :
    l.filter p ++ l.filter (fun a => !p a) = l := by
  induction l with
  | nil => rfl
  | cons a l ih =>
    rw [List.pairwise_cons] at h
    by_cases ha : p a = true
    · rw [List.filter_cons_of_pos ha, List.filter_cons_of_neg (by simp [ha]), List.cons_append,
        ih h.2]
    · have hnone : l.filter p = [] :=
        List.filter_eq_nil_iff.2 fun b hb hpb => ha (hp a b (h.1 b hb) hpb)
      have hall := ih h.2
      rw [hnone, List.nil_append] at hall
      rw [List.filter_cons_of_neg ha, hnone, List.filter_cons_of_pos (by simp [ha]), hall,
        List.nil_append]

end Sorting

/-! ## Dictionaries of lists -/

section Grouping

variable {α κ : Type*} [DecidableEq κ]

/-- The distinct values in the order of their first appearance. -/
def firstSeen (l : List κ) : List κ := l.reverse.dedup.reverse

/-- `groups[key(a)].append(a)` over a list, the keys in the order they came in. -/
def groupBy (key : α → κ) (l : List α) : List (κ × List α) :=
  (firstSeen (l.map key)).map fun k => (k, l.filter fun a => key a = k)

@[simp] theorem mem_firstSeen {l : List κ} {k : κ} : k ∈ firstSeen l ↔ k ∈ l := by
  simp [firstSeen]

theorem firstSeen_nodup (l : List κ) : (firstSeen l).Nodup :=
  List.nodup_reverse.2 (List.nodup_dedup _)

theorem firstSeen_of_nodup {l : List κ} (h : l.Nodup) : firstSeen l = l := by
  rw [firstSeen, (List.nodup_reverse.2 h).dedup, List.reverse_reverse]

theorem firstSeen_concat (l : List κ) (k : κ) :
    firstSeen (l ++ [k]) = if k ∈ l then firstSeen l else firstSeen l ++ [k] := by
  rw [firstSeen, firstSeen, List.reverse_append, List.reverse_singleton, List.singleton_append]
  split
  · rename_i h
    rw [List.dedup_cons_of_mem (List.mem_reverse.2 h)]
  · rename_i h
    rw [List.dedup_cons_of_notMem (mt List.mem_reverse.1 h), List.reverse_cons]

section FirstSeen

variable {β : Type*} {key : α → κ} {p : α → Bool} {F : κ → List β} {l : List α}

/-- A group of which nothing is kept gives nothing, where the first of a group that gives something
is kept. -/
theorem eq_nil_of_first
    (h : ∀ k, F k ≠ [] → ∀ a, (l.filter fun a => key a = k).head? = some a → p a = true) {k : κ}
    (hk : k ∈ l.map key) (hp : k ∉ (l.filter p).map key) : F k = [] := by
  by_contra hne
  obtain ⟨b, hb, hkey⟩ := List.mem_map.1 hk
  cases hfirst : (l.filter fun a => key a = k).head? with
  | none =>
    rw [List.head?_eq_none_iff] at hfirst
    exact absurd hkey (by simpa using List.filter_eq_nil_iff.1 hfirst b hb)
  | some c =>
    have hc := List.mem_filter.1 (List.mem_of_mem_head? hfirst)
    refine hp (List.mem_map.2 ⟨c, List.mem_filter.2 ⟨hc.1, h k hne c hfirst⟩, ?_⟩)
    exact of_decide_eq_true hc.2

/-- Groups that give nothing, and elements that are no first of their group, may be left out. -/
theorem flatMap_firstSeen_filter
    (h : ∀ k, F k ≠ [] → ∀ a, (l.filter fun a => key a = k).head? = some a → p a = true) :
    (firstSeen (l.map key)).flatMap F = (firstSeen ((l.filter p).map key)).flatMap F := by
  -- on the list from its end: a first of its group is kept, another one adds nothing
  induction l using List.reverseRecOn with
  | nil => rfl
  | append_singleton l a ih =>
    have hold : ∀ k, F k ≠ [] → ∀ b, (l.filter fun a => key a = k).head? = some b → p b = true :=
      fun k hk b hb => h k hk b (by
        rw [List.filter_append, List.head?_append, hb, Option.some_or])
    rw [List.map_append, List.map_singleton, firstSeen_concat]
    by_cases hin : key a ∈ l.map key
    · rw [if_pos hin, ih hold, List.filter_append]
      cases hp : p a with
      | false => rw [List.filter_cons_of_neg (by simp [hp]), List.filter_nil, List.append_nil]
      | true =>
        rw [List.filter_cons_of_pos hp, List.filter_nil, List.map_append, List.map_singleton,
          firstSeen_concat]
        split_ifs with hin'
        · rfl
        · rw [List.flatMap_append, List.flatMap_singleton, eq_nil_of_first hold hin hin',
            List.append_nil]
    · have hin' : key a ∉ (l.filter p).map key :=
        fun hk => hin (List.map_subset _ (List.filter_subset_self l) hk)
      rw [if_neg hin, List.flatMap_append, ih hold, List.flatMap_singleton]
      cases hp : p a with
      | true =>
        rw [List.filter_append, List.filter_cons_of_pos hp, List.filter_nil, List.map_append,
          List.map_singleton, firstSeen_concat, if_neg hin', List.flatMap_append,
          List.flatMap_singleton]
      | false =>
        have hskip : (l ++ [a]).filter p = l.filter p := by simp [hp]
        have hempty : F (key a) = [] := eq_nil_of_first h (by simp) (by rwa [hskip])
        rw [hskip, hempty, List.append_nil]

end FirstSeen

theorem firstSeen_map {f : α → κ} [DecidableEq α] (hf : Function.Injective f) (l : List α) :
    firstSeen (l.map f) = (firstSeen l).map f := by
  rw [firstSeen, firstSeen, ← List.map_reverse, List.dedup_map_of_injective hf, List.map_reverse]

theorem firstSeen_perm_dedup (l : List κ) : (firstSeen l).Perm l.dedup :=
  (List.perm_ext_iff_of_nodup (firstSeen_nodup l) (List.nodup_dedup l)).2
    fun k => by rw [mem_firstSeen, List.mem_dedup]

theorem mem_groupBy {key : α → κ} {l : List α} {g : κ × List α} :
    g ∈ groupBy key l ↔ g.1 ∈ l.map key ∧ g.2 = l.filter fun a => key a = g.1 := by
  obtain ⟨k, as⟩ := g
  simp only [groupBy, List.mem_map, mem_firstSeen, Prod.mk.injEq]
  constructor
  · rintro ⟨k', hk, rfl, rfl⟩
    exact ⟨hk, rfl⟩
  · rintro ⟨hk, has⟩
    exact ⟨k, hk, rfl, has.symm⟩

theorem groupBy_map {β : Type*} (f : β → α) (key : α → κ) (l : List β) :
    groupBy key (l.map f) = (groupBy (fun b => key (f b)) l).map fun g => (g.1, g.2.map f) := by
  simp only [groupBy, List.map_map, List.filter_map, Function.comp_def]

/-- What the groups give under one key is what the group of that key gives. -/
theorem filter_flatMap_groupBy {β : Type*} (key : α → κ) (outKey : β → κ) (l : List α)
    (F : κ → List α → List β) (hnil : ∀ k, F k [] = [])
    (hF : ∀ k as, (∀ a ∈ as, key a = k) → ∀ b ∈ F k as, outKey b = k) (k : κ) :
    (((groupBy key l).flatMap fun g => F g.1 g.2).filter fun b => outKey b = k) =
      F k (l.filter fun a => key a = k) := by
  have hgroup : ∀ k', ((F k' (l.filter fun a => key a = k')).filter fun b => outKey b = k) =
      if k' = k then F k (l.filter fun a => key a = k) else [] := by
    intro k'
    have hout := hF k' (l.filter fun a => key a = k')
      fun a ha => of_decide_eq_true (List.mem_filter.1 ha).2
    by_cases hk : k' = k
    · subst hk
      rw [if_pos rfl, List.filter_eq_self]
      exact fun b hb => decide_eq_true (hout b hb)
    · rw [if_neg hk, List.filter_eq_nil_iff]
      exact fun b hb h => hk ((hout b hb).symm.trans (of_decide_eq_true h))
  have hkeys : ∀ ks : List κ, ks.Nodup →
      ((ks.flatMap fun k' => F k' (l.filter fun a => key a = k')).filter fun b => outKey b = k) =
        if k ∈ ks then F k (l.filter fun a => key a = k) else [] := by
    intro ks hks
    induction ks with
    | nil => rfl
    | cons k' ks ih =>
      rw [List.nodup_cons] at hks
      rw [List.flatMap_cons, List.filter_append, hgroup, ih hks.2]
      by_cases hk : k' = k
      · subst hk
        simp [hks.1]
      · simp [hk, Ne.symm hk]
  rw [groupBy, List.flatMap_map, hkeys _ (firstSeen_nodup _)]
  split_ifs with hk
  · rfl
  · have hempty : (l.filter fun a => key a = k) = [] := by
      refine List.filter_eq_nil_iff.2 fun a ha h => hk (mem_firstSeen.2 ?_)
      exact of_decide_eq_true h ▸ List.mem_map_of_mem ha
    rw [hempty, hnil]

/-- The groups in any order of the keys: keys without elements add nothing. -/
theorem groupBy_flatMap_perm {β : Type*} (key : α → κ) (l : List α) (F : κ → List α → List β)
    (hF : ∀ k, F k [] = []) {ks : List κ} (hnd : ks.Nodup) (hks : l.map key ⊆ ks) :
    ((groupBy key l).flatMap fun g => F g.1 g.2).Perm
      (ks.flatMap fun k => F k (l.filter fun a => key a = k)) := by
  have hsub : ((ks.filter fun k => k ∈ l.map key).flatMap fun k =>
      F k (l.filter fun a => key a = k)) =
        ks.flatMap fun k => F k (l.filter fun a => key a = k) := by
    clear hnd hks
    induction ks with
    | nil => rfl
    | cons k ks ih =>
      by_cases hk : k ∈ l.map key
      · rw [List.filter_cons_of_pos (by simpa using hk), List.flatMap_cons, List.flatMap_cons, ih]
      · have hnil : (l.filter fun a => key a = k) = [] := by
          refine List.filter_eq_nil_iff.2 fun a ha h => hk ?_
          exact of_decide_eq_true h ▸ List.mem_map_of_mem ha
        rw [List.filter_cons_of_neg (by simpa using hk), List.flatMap_cons, ih, hnil, hF,
          List.nil_append]
  have hperm : (firstSeen (l.map key)).Perm (ks.filter fun k => k ∈ l.map key) := by
    refine (List.perm_ext_iff_of_nodup (firstSeen_nodup _) (hnd.filter _)).2 fun k => ?_
    rw [mem_firstSeen, List.mem_filter]
    simp only [decide_eq_true_eq]
    exact ⟨fun h => ⟨hks h, h⟩, fun h => h.2⟩
  rw [← hsub, groupBy, List.flatMap_map]
  exact hperm.flatMap_right _

/-- Two keys that tell the same elements apart have the same groups, in the same order. -/
theorem map_snd_groupBy_congr {κ' : Type*} [DecidableEq κ'] {key : α → κ} {key' : α → κ'}
    {l : List α}
    (h : ∀ a ∈ l, ∀ b ∈ l, key a = key b ↔ key' a = key' b) :
    (groupBy key l).map Prod.snd = (groupBy key' l).map Prod.snd := by
  have hgroups : ∀ m ⊆ l, ((m.map key).dedup.map fun k => l.filter fun a => key a = k) =
      (m.map key').dedup.map fun k => l.filter fun a => key' a = k := by
    intro m hm
    induction m with
    | nil => rfl
    | cons a m ih =>
      rw [List.cons_subset] at hm
      have hseen : key a ∈ m.map key ↔ key' a ∈ m.map key' := by
        simp only [List.mem_map]
        exact exists_congr fun b => and_congr_right fun hb => h b (hm.2 hb) a hm.1
      have hgroup : (l.filter fun b => key b = key a) = l.filter fun b => key' b = key' a := by
        refine List.filter_congr fun b hb => ?_
        simp only [h b hb a hm.1]
      by_cases hin : key a ∈ m.map key
      · rw [List.map_cons, List.map_cons, List.dedup_cons_of_mem hin,
          List.dedup_cons_of_mem (hseen.1 hin), ih hm.2]
      · rw [List.map_cons, List.map_cons, List.dedup_cons_of_notMem hin,
          List.dedup_cons_of_notMem (fun h' => hin (hseen.2 h')), List.map_cons, List.map_cons,
          hgroup, ih hm.2]
  have hrev := hgroups l.reverse fun a ha => List.mem_reverse.1 ha
  simp only [groupBy, firstSeen, List.map_map, Function.comp_def, List.map_reverse] at hrev ⊢
  rw [hrev]

theorem firstSeen_filter (p : κ → Bool) (l : List κ) :
    firstSeen (l.filter p) = (firstSeen l).filter p := by
  have hdedup : ∀ m : List κ, (m.filter p).dedup = m.dedup.filter p := by
    intro m
    induction m with
    | nil => rfl
    | cons k m ih =>
      by_cases hp : p k
      · rw [List.filter_cons_of_pos hp]
        by_cases hin : k ∈ m
        · rw [List.dedup_cons_of_mem hin, List.dedup_cons_of_mem (List.mem_filter.2 ⟨hin, hp⟩), ih]
        · rw [List.dedup_cons_of_notMem hin, List.filter_cons_of_pos hp, ← ih,
            List.dedup_cons_of_notMem fun h => hin (List.mem_filter.1 h).1]
      · rw [List.filter_cons_of_neg hp, ih]
        by_cases hin : k ∈ m
        · rw [List.dedup_cons_of_mem hin]
        · rw [List.dedup_cons_of_notMem hin, List.filter_cons_of_neg hp]
  rw [firstSeen, firstSeen, ← List.filter_reverse, hdedup, List.filter_reverse]

/-- The groups under some of the keys are the groups of the elements with those keys. -/
theorem groupBy_filter (key : α → κ) (p : κ → Bool) (l : List α) :
    groupBy key (l.filter fun a => p (key a)) = (groupBy key l).filter fun g => p g.1 := by
  have hkeys : (l.filter fun a => p (key a)).map key = (l.map key).filter p := by
    rw [List.filter_map]
    rfl
  rw [groupBy, hkeys, firstSeen_filter, groupBy, List.filter_map]
  refine List.map_congr_left fun k hk => ?_
  have hp := (List.mem_filter.1 hk).2
  rw [List.filter_filter]
  congr 1
  refine List.filter_congr fun a _ => ?_
  by_cases hk : key a = k
  · simp only [hk]
    simpa using hp
  · simp [hk]

theorem groupBy_comp {κ' : Type*} [DecidableEq κ'] {φ : κ → κ'} (hφ : Function.Injective φ)
    (key : α → κ) (l : List α) :
    groupBy (fun a => φ (key a)) l = (groupBy key l).map fun g => (φ g.1, g.2) := by
  have hkeys : l.map (fun a => φ (key a)) = (l.map key).map φ := by simp
  rw [groupBy, hkeys, firstSeen_map hφ, groupBy, List.map_map, List.map_map]
  simp only [Function.comp_def, hφ.eq_iff]

theorem groupBy_congr {key key' : α → κ} {l : List α} (h : ∀ a ∈ l, key a = key' a) :
    groupBy key l = groupBy key' l := by
  have hkeys : l.map key = l.map key' := List.map_congr_left h
  rw [groupBy, groupBy, hkeys]
  refine List.map_congr_left fun k _ => ?_
  congr 1
  exact List.filter_congr fun a ha => by rw [h a ha]

theorem lookup_map_groupBy {β : Type*} (key : α → κ) (F : κ → List α → β) (l : List α) (k : κ) :
    ((groupBy key l).map fun g => (g.1, F g.1 g.2)).lookup k =
      if k ∈ l.map key then some (F k (l.filter fun a => key a = k)) else none := by
  have hkeys : ∀ (G : κ → β) (ks : List κ),
      (ks.map fun k' => (k', G k')).lookup k = if k ∈ ks then some (G k) else none := by
    intro G ks
    induction ks with
    | nil => rfl
    | cons k' ks ih =>
      rw [List.map_cons, List.lookup_cons]
      by_cases hk : k = k'
      · subst hk
        simp
      · rw [beq_eq_false_iff_ne.2 hk, ih]
        simp [hk]
  rw [groupBy, List.map_map]
  simpa [Function.comp_def] using
    hkeys (fun k' => F k' (l.filter fun a => key a = k')) (firstSeen (l.map key))

end Grouping

end Py
