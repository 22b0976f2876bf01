import BifrostTrade.Lib.Python

/-!
# Conditions in SQL and keyset pages

Conditions that may be unknown, and lists that are read page by page: each page starts after a key,
the last one of the page before.  Whatever changes between two pages, a row that is there all the
time is read once.
-/

namespace Sql

open Py

/-! ## Conditions -/

/-- What a condition says of a row; a comparison with a missing value is unknown. -/
inductive Truth where
  | yes
  | no
  | unknown
  deriving DecidableEq

namespace Truth

/-- A truth value that is known. -/
def ofBool (b : Bool) : Truth := if b then yes else no

/-- `AND`. -/
def and : Truth → Truth → Truth
  | yes, t => t
  | no, _ => no
  | unknown, no => no
  | unknown, _ => unknown

/-- `OR`. -/
def or : Truth → Truth → Truth
  | yes, _ => yes
  | no, t => t
  | unknown, yes => yes
  | unknown, _ => unknown

/-- Conditions joined by `AND`. -/
def all (ts : List Truth) : Truth := ts.foldr and yes

@[simp] theorem ofBool_eq_yes {b : Bool} : ofBool b = yes ↔ b = true := by
  cases b <;> simp [ofBool]

@[simp] theorem and_eq_yes {s t : Truth} : s.and t = yes ↔ s = yes ∧ t = yes := by
  cases s <;> cases t <;> simp [and]

@[simp] theorem or_eq_yes {s t : Truth} : s.or t = yes ↔ s = yes ∨ t = yes := by
  cases s <;> cases t <;> simp [or]

@[simp] theorem all_eq_yes {ts : List Truth} : all ts = yes ↔ ∀ t ∈ ts, t = yes := by
  induction ts with
  | nil => simp [all]
  | cons t ts ih =>
    show (t.and (all ts)) = yes ↔ _
    rw [and_eq_yes, ih, List.forall_mem_cons]

end Truth

variable {α : Type*}

/-- A comparison of two values that may be missing. -/
def compare (r : α → α → Prop) [DecidableRel r] : Option α → Option α → Truth
  | some a, some b => .ofBool (r a b)
  | _, _ => .unknown

section Compare

variable {r : α → α → Prop} [DecidableRel r] {x y : Option α} {a b : α}

@[simp] theorem compare_none_left : compare r none y = .unknown := rfl

@[simp] theorem compare_none_right : compare r x none = .unknown := by
  cases x <;> rfl

@[simp] theorem compare_some_eq_yes : compare r (some a) (some b) = .yes ↔ r a b := by
  simp [compare]

theorem compare_eq_yes : compare r x y = .yes ↔ ∃ a ∈ x, ∃ b ∈ y, r a b := by
  cases x <;> cases y <;> simp

end Compare

/-- `x IS NULL`. -/
def isNull (x : Option α) : Truth := .ofBool x.isNone

@[simp] theorem isNull_eq_yes {x : Option α} : isNull x = .yes ↔ x = none := by
  simp [isNull]

/-! ## Pages -/

/-- The items of a page and where the next one starts. -/
structure Page (β γ : Type*) where
  items : List β
  next : Option γ
  deriving DecidableEq

/-- The items of all pages up to the one that has no next; each is read in a state of its own. -/
inductive Walk {σ β γ : Type*} (page : σ → Option γ → Option (Page β γ)) :
    List σ → Option γ → List β → Prop where
  | last {s : σ} {c : Option γ} {p : Page β γ} (h : page s c = some p) (hend : p.next = none) :
      Walk page [s] c p.items
  | more {s : σ} {ss : List σ} {c : Option γ} {p : Page β γ} {c' : γ} {items : List β}
      (h : page s c = some p) (hnext : p.next = some c') (rest : Walk page ss (some c') items) :
      Walk page (s :: ss) c (p.items ++ items)

/-- Cursors may be passed on in another form, and states looked at through a function. -/
theorem walk_encode {σ σ' β γ γ' : Type*} {page : σ → Option γ → Option (Page β γ)}
    {page' : σ' → Option γ' → Option (Page β γ')} {f : σ' → σ} {encode : γ → γ'}
    (hpage : ∀ s c, page' s (c.map encode) =
      (page (f s) c).map fun p => ⟨p.items, p.next.map encode⟩)
    {ss : List σ'} {c : Option γ} {items : List β} :
    Walk page' ss (c.map encode) items ↔ Walk page (ss.map f) c items := by
  constructor
  · intro h
    generalize hc : c.map encode = c' at h
    induction h generalizing c with
    | last h hend =>
      rw [← hc, hpage] at h
      obtain ⟨p, hp, rfl⟩ := Option.map_eq_some_iff.1 h
      exact .last hp (Option.map_eq_none_iff.1 hend)
    | more h hnext _ ih =>
      rw [← hc, hpage] at h
      obtain ⟨p, hp, rfl⟩ := Option.map_eq_some_iff.1 h
      obtain ⟨k, hk, rfl⟩ := Option.map_eq_some_iff.1 hnext
      exact .more hp hk (ih (c := some k) rfl)
  · intro h
    generalize hss : ss.map f = ts at h
    induction h generalizing ss with
    | last h hend =>
      obtain ⟨s, rfl, rfl⟩ := List.map_eq_singleton_iff.1 hss
      have hp := hpage s ‹_›
      rw [h] at hp
      exact .last (p := ⟨_, _⟩) hp (by simp [hend])
    | more h hnext _ ih =>
      obtain ⟨s, ss, rfl, rfl, rfl⟩ := List.map_eq_cons_iff.1 hss
      have hp := hpage s ‹_›
      rw [h] at hp
      exact .more (p := ⟨_, _⟩) hp (by simp [hnext]) (ih rfl)

section Keyset

variable {κ : Type*} [LinearOrder κ] (key : α → κ)

/-- The element comes after the key of a cursor. -/
def After (c : Option κ) (a : α) : Prop := ∀ k ∈ c, k < key a

instance (c : Option κ) (a : α) : Decidable (After key c a) :=
  inferInstanceAs (Decidable (∀ k ∈ c, _))

/-- What is left to read after a cursor. -/
def rest (rows : List α) (c : Option κ) : List α :=
  sortedBy key (rows.filter fun a => After key c a)

/-- A page of at most `limit` rows; one row more is read to know whether another page follows. -/
def keysetPage (limit : ℕ) (rows : List α) (c : Option κ) : Page α κ :=
  let read := (rest key rows c).take (limit + 1)
  if limit < read.length then ⟨read.take limit, (read.take limit).getLast?.map key⟩
  else ⟨read, none⟩

variable {key} {limit : ℕ} {rows : List α} {c : Option κ} {a : α}

theorem mem_rest : a ∈ rest key rows c ↔ a ∈ rows ∧ After key c a := by
  simp [rest]

/-- Rows with different keys are left in a strict order. -/
theorem rest_pairwise (hkeys : (rows.map key).Nodup) (c : Option κ) :
    (rest key rows c).Pairwise fun a b => key a < key b := by
  have hsub : ((rest key rows c).map key).Nodup := by
    refine ((sortedBy_perm key _).map key).nodup_iff.2 (hkeys.sublist ?_)
    exact List.filter_sublist.map key
  have hne : (rest key rows c).Pairwise fun a b => key a ≠ key b := List.pairwise_map.1 hsub
  have hle : (rest key rows c).Pairwise fun a b => key a ≤ key b := sortedBy_pairwise key _
  exact (hle.and hne).imp fun h => lt_of_le_of_ne h.1 h.2

/-- What is left after a later key. -/
theorem rest_some {k : κ} (hk : ∀ k' ∈ c, k' ≤ k) :
    rest key rows (some k) = (rest key rows c).filter fun a => k < key a := by
  rw [rest, rest, filter_sortedBy, List.filter_filter]
  congr 1
  refine List.filter_congr fun a _ => ?_
  rw [Bool.eq_iff_iff]
  simp only [After, Option.mem_def, Option.some.injEq, forall_eq', decide_eq_true_eq,
    Bool.and_eq_true]
  exact ⟨fun h => ⟨h, fun k' hk' => (hk k' hk').trans_lt h⟩, fun h => h.1⟩

theorem keysetPage_of_le (h : (rest key rows c).length ≤ limit) :
    keysetPage key limit rows c = ⟨rest key rows c, none⟩ := by
  have hread : (rest key rows c).take (limit + 1) = rest key rows c :=
    List.take_of_length_le (by omega)
  rw [keysetPage, hread]
  exact if_neg (by omega)

/-- The keys of an ascending list are at most that of its last element. -/
theorem key_le_getLast {l : List α} (h : l.Pairwise fun a b => key a < key b) (hne : l ≠ []) {b : α}
    (hb : b ∈ l) : key b ≤ key (l.getLast hne) := by
  rw [← List.dropLast_append_getLast hne] at h hb
  rcases List.mem_append.1 hb with hb | hb
  · exact ((List.pairwise_append.1 h).2.2 b hb _ (by simp)).le
  · rw [List.mem_singleton.1 hb]

/-- A page that another one follows is the front of what is left. -/
theorem keysetPage_of_lt (hkeys : (rows.map key).Nodup) (hlimit : 0 < limit)
    (h : limit < (rest key rows c).length) :
    ∃ a ∈ (rest key rows c).take limit,
      keysetPage key limit rows c = ⟨(rest key rows c).take limit, some (key a)⟩ ∧
      rest key rows (some (key a)) = (rest key rows c).drop limit := by
  set l := rest key rows c with hl
  have hlength : (l.take (limit + 1)).length = limit + 1 := by
    rw [List.length_take]
    omega
  have htake : (l.take (limit + 1)).take limit = l.take limit := by
    rw [List.take_take]
    congr 1
    omega
  have hne : l.take limit ≠ [] := by
    rw [← List.length_pos_iff, List.length_take]
    omega
  have hpage : keysetPage key limit rows c =
      ⟨l.take limit, some (key ((l.take limit).getLast hne))⟩ := by
    rw [keysetPage, ← hl, if_pos (by omega), htake, List.getLast?_eq_some_getLast hne]
    rfl
  set a := (l.take limit).getLast hne with ha
  have hmem : a ∈ l.take limit := List.getLast_mem hne
  refine ⟨a, hmem, hpage, ?_⟩
  have hstrict : (l.take limit ++ l.drop limit).Pairwise fun a b => key a < key b := by
    rw [List.take_append_drop]
    exact rest_pairwise hkeys c
  obtain ⟨hfirst, -, hcross⟩ := List.pairwise_append.1 hstrict
  have hle : ∀ b ∈ l.take limit, key b ≤ key a := fun b hb => key_le_getLast hfirst hne hb
  have hafter : After key c a := (mem_rest.1 (List.mem_of_mem_take hmem)).2
  have hsplit : rest key rows (some (key a)) = (rest key rows c).filter fun b => key a < key b :=
    rest_some fun k hk => (hafter k hk).le
  rw [hsplit, ← hl, ← List.take_append_drop limit l, List.filter_append,
    List.take_append_drop]
  have hnone : (l.take limit).filter (fun b => key a < key b) = [] :=
    List.filter_eq_nil_iff.2 fun b hb h => absurd (of_decide_eq_true h) (hle b hb).not_gt
  have hall : (l.drop limit).filter (fun b => key a < key b) = l.drop limit :=
    List.filter_eq_self.2 fun b hb => decide_eq_true (hcross a hmem b hb)
  rw [hnone, hall, List.nil_append]

/-- A page without a next one is all that is left. -/
theorem items_of_next_eq_none (hkeys : (rows.map key).Nodup) (hlimit : 0 < limit)
    (h : (keysetPage key limit rows c).next = none) :
    (keysetPage key limit rows c).items = rest key rows c := by
  rcases Nat.lt_or_ge limit (rest key rows c).length with hlt | hle
  · obtain ⟨a, -, hpage, -⟩ := keysetPage_of_lt hkeys hlimit hlt
    rw [hpage] at h
    cases h
  · rw [keysetPage_of_le hle]

theorem lt_of_next_eq_some {k : κ} (h : (keysetPage key limit rows c).next = some k) :
    limit < (rest key rows c).length := by
  by_contra hle
  rw [keysetPage_of_le (not_lt.1 hle)] at h
  cases h

/-- A page that another one follows lies between the two cursors, and nothing is in between it and
what is left after it. -/
theorem items_of_next_eq_some {k : κ} (hkeys : (rows.map key).Nodup) (hlimit : 0 < limit)
    (h : (keysetPage key limit rows c).next = some k) :
    (keysetPage key limit rows c).items ++ rest key rows (some k) = rest key rows c ∧
      (keysetPage key limit rows c).items.length = limit ∧
      (∀ a ∈ (keysetPage key limit rows c).items, key a ≤ k) ∧ ∀ k' ∈ c, k' < k := by
  have hlt := lt_of_next_eq_some h
  obtain ⟨a, ha, hpage, hrest⟩ := keysetPage_of_lt hkeys hlimit hlt
  rw [hpage] at h ⊢
  obtain rfl : key a = k := Option.some.inj h
  refine ⟨by rw [hrest, List.take_append_drop], List.length_take_of_le hlt.le, ?_, ?_⟩
  · intro b hb
    by_contra hlater
    -- a later row would be left for the next page
    have hbrest : b ∈ rest key rows (some (key a)) := by
      refine mem_rest.2 ⟨(mem_rest.1 (List.mem_of_mem_take hb)).1, ?_⟩
      rintro k' hk'
      obtain rfl := Option.some.inj hk'
      exact not_le.1 hlater
    rw [hrest] at hbrest
    have hstrict := rest_pairwise hkeys c
    rw [← List.take_append_drop limit (rest key rows c)] at hstrict
    exact lt_irrefl _ ((List.pairwise_append.1 hstrict).2.2 b hb b hbrest)
  · exact (mem_rest.1 (List.mem_of_mem_take ha)).2

/-! ### Rows that stay the same -/

variable (key limit) in
/-- The pages of a table, read without a failure. -/
def keysetRead (rows : List α) (c : Option κ) : Option (Page α κ) :=
  some (keysetPage key limit rows c)

/-- The pages of rows that stay the same are the rows in order. -/
theorem walk_const {ss : List (List α)} {items : List α} (hkeys : (rows.map key).Nodup)
    (hlimit : 0 < limit) (hss : ∀ s ∈ ss, s = rows) (h : Walk (keysetRead key limit) ss c items) :
    items = rest key rows c := by
  induction h with
  | last h hend =>
    obtain rfl := hss _ List.mem_cons_self
    obtain rfl := Option.some.inj h
    exact items_of_next_eq_none hkeys hlimit hend
  | more h hnext _ ih =>
    obtain rfl := hss _ List.mem_cons_self
    obtain rfl := Option.some.inj h
    rw [ih fun s hs => hss s (List.mem_cons_of_mem _ hs)]
    exact (items_of_next_eq_some hkeys hlimit hnext).1

/-- No page is empty but the only one. -/
theorem pages_le {n : ℕ} {items : List α} (hkeys : (rows.map key).Nodup) (hlimit : 0 < limit)
    (h : Walk (keysetRead key limit) (List.replicate n rows) c items) :
    n = 1 ∨ (n - 1) * limit < items.length := by
  generalize hss : List.replicate n rows = ss at h
  induction h generalizing n with
  | last =>
    left
    simpa using congrArg List.length hss
  | @more s ss c p c' items h hnext hrest ih =>
    right
    obtain ⟨m, rfl⟩ : ∃ m, n = m + 1 := Nat.exists_eq_succ_of_ne_zero fun h0 => by simp [h0] at hss
    rw [List.replicate_succ] at hss
    obtain ⟨rfl, rfl⟩ := List.cons.inj hss
    obtain rfl := Option.some.inj h
    obtain ⟨hsplit, hlength, -⟩ := items_of_next_eq_some hkeys hlimit hnext
    have hitems := walk_const hkeys hlimit (fun s hs => List.eq_of_mem_replicate hs) hrest
    have hlt := lt_of_next_eq_some hnext
    rw [← hsplit, List.length_append, hlength, ← hitems] at hlt
    rw [List.length_append, hlength, Nat.add_sub_cancel]
    rcases ih rfl with rfl | hle
    · omega
    · have hm : m * limit ≤ (m - 1) * limit + limit := by
        rw [← Nat.succ_mul]
        exact Nat.mul_le_mul_right _ (by omega)
      omega

/-- The pages of rows that stay the same come to an end. -/
theorem exists_walk (hkeys : (rows.map key).Nodup) (hlimit : 0 < limit) (c : Option κ) :
    ∃ n, Walk (keysetRead key limit) (List.replicate n rows) c (rest key rows c) := by
  induction hn : (rest key rows c).length using Nat.strong_induction_on generalizing c with
  | _ n ih =>
    cases hnext : (keysetPage key limit rows c).next with
    | none =>
      refine ⟨1, ?_⟩
      rw [← items_of_next_eq_none hkeys hlimit hnext]
      exact .last rfl hnext
    | some k =>
      obtain ⟨hsplit, hlength, -⟩ := items_of_next_eq_some hkeys hlimit hnext
      have hshorter : (rest key rows (some k)).length < n := by
        rw [← hn, ← hsplit, List.length_append, hlength]
        omega
      obtain ⟨m, hwalk⟩ := ih _ hshorter (some k) rfl
      refine ⟨m + 1, ?_⟩
      rw [← hsplit, List.replicate_succ]
      exact .more rfl hnext hwalk

/-! ### Rows that come and go -/

variable {ss : List (List α)} {items : List α}

/-- Each item was read after the cursor from one of the states. -/
theorem after_of_walk (hkeys : ∀ s ∈ ss, (s.map key).Nodup) (hlimit : 0 < limit)
    (h : Walk (keysetRead key limit) ss c items) :
    ∀ a ∈ items, After key c a ∧ ∃ s ∈ ss, a ∈ s := by
  induction h with
  | last h hend =>
    obtain rfl := Option.some.inj h
    rw [items_of_next_eq_none (hkeys _ List.mem_cons_self) hlimit hend]
    intro a ha
    exact ⟨(mem_rest.1 ha).2, _, List.mem_cons_self, (mem_rest.1 ha).1⟩
  | more h hnext _ ih =>
    obtain rfl := Option.some.inj h
    obtain ⟨hsplit, -, -, hlater⟩ :=
      items_of_next_eq_some (hkeys _ List.mem_cons_self) hlimit hnext
    intro a ha
    rcases List.mem_append.1 ha with ha | ha
    · have ha := mem_rest.1 (hsplit ▸ List.mem_append_left _ ha)
      exact ⟨ha.2, _, List.mem_cons_self, ha.1⟩
    · obtain ⟨hafter, s, hs, has⟩ := ih (fun s hs => hkeys s (List.mem_cons_of_mem _ hs)) a ha
      exact ⟨fun k' hk' => (hlater k' hk').trans (hafter _ rfl), s, List.mem_cons_of_mem _ hs, has⟩

/-- The items come in a strict order, whatever the states are. -/
theorem pairwise_of_walk (hkeys : ∀ s ∈ ss, (s.map key).Nodup) (hlimit : 0 < limit)
    (h : Walk (keysetRead key limit) ss c items) : items.Pairwise fun a b => key a < key b := by
  induction h with
  | last h hend =>
    obtain rfl := Option.some.inj h
    rw [items_of_next_eq_none (hkeys _ List.mem_cons_self) hlimit hend]
    exact rest_pairwise (hkeys _ List.mem_cons_self) _
  | more h hnext hrest ih =>
    obtain rfl := Option.some.inj h
    obtain ⟨hsplit, -, hle, -⟩ := items_of_next_eq_some (hkeys _ List.mem_cons_self) hlimit hnext
    have hkeys' := fun s hs => hkeys s (List.mem_cons_of_mem _ hs)
    have hstrict : ∀ c, (rest key _ c).Pairwise fun a b => key a < key b :=
      rest_pairwise (hkeys _ List.mem_cons_self)
    refine List.pairwise_append.2 ⟨?_, ih hkeys', fun a ha b hb => ?_⟩
    · exact (List.pairwise_append.1 (hsplit ▸ hstrict _)).1
    · exact (hle a ha).trans_lt ((after_of_walk hkeys' hlimit hrest b hb).1 _ rfl)

/-- A row after the cursor that is there all the time is read. -/
theorem mem_of_walk (hkeys : ∀ s ∈ ss, (s.map key).Nodup) (hlimit : 0 < limit)
    (h : Walk (keysetRead key limit) ss c items) (hall : ∀ s ∈ ss, a ∈ s)
    (hafter : After key c a) : a ∈ items := by
  induction h with
  | last h hend =>
    obtain rfl := Option.some.inj h
    rw [items_of_next_eq_none (hkeys _ List.mem_cons_self) hlimit hend]
    exact mem_rest.2 ⟨hall _ List.mem_cons_self, hafter⟩
  | more h hnext _ ih =>
    obtain rfl := Option.some.inj h
    obtain ⟨hsplit, -⟩ := items_of_next_eq_some (hkeys _ List.mem_cons_self) hlimit hnext
    have ha := mem_rest.2 ⟨hall _ List.mem_cons_self, hafter⟩
    rw [← hsplit] at ha
    rcases List.mem_append.1 ha with ha | ha
    · exact List.mem_append_left _ ha
    · exact List.mem_append_right _ (ih (fun s hs => hkeys s (List.mem_cons_of_mem _ hs))
        (fun s hs => hall s (List.mem_cons_of_mem _ hs)) (mem_rest.1 ha).2)

/-! ### Pages of a program -/

/-- Reading page by page gives every row selected once: all of them in order while they stay the
same, with no page too many, and those that stay however the others change. -/
structure ReadsOnce {σ γ : Type*} (page : σ → Option γ → Option (Page α γ)) (key : α → κ)
    (limit : ℕ) (select : σ → List α) [DecidableEq α] : Prop where
  ends : ∀ s, ∃ n, Walk page (List.replicate n s) none (sortedBy key (select s))
  complete : ∀ s n items, Walk page (List.replicate n s) none items →
    items = sortedBy key (select s) ∧ (n = 1 ∨ (n - 1) * limit < items.length)
  once : ∀ ss items, Walk page ss none items → ∀ a, (∀ s ∈ ss, a ∈ select s) → items.count a = 1
  ordered : ∀ ss items, Walk page ss none items →
    (items.Pairwise fun a b => key a < key b) ∧ ∀ a ∈ items, ∃ s ∈ ss, a ∈ select s

/-- Pages that are keyset pages but for the form of the cursors read every row once. -/
theorem readsOnce_of_encode [DecidableEq α] {σ γ : Type*}
    {page : σ → Option γ → Option (Page α γ)} {select : σ → List α} {encode : κ → γ}
    (hkeys : ∀ s, ((select s).map key).Nodup) (hlimit : 0 < limit)
    (hpage : ∀ s c, page s (c.map encode) =
      (keysetRead key limit (select s) c).map fun p => ⟨p.items, p.next.map encode⟩) :
    ReadsOnce page key limit select := by
  have hwalk : ∀ {ss items}, Walk page ss none items ↔
      Walk (keysetRead key limit) (ss.map select) none items := fun {ss items} =>
    walk_encode (c := none) hpage
  have hkeys' : ∀ ss : List σ, ∀ rows ∈ ss.map select, (rows.map key).Nodup := by
    intro ss rows hrows
    obtain ⟨s, -, rfl⟩ := List.mem_map.1 hrows
    exact hkeys s
  have hrest : ∀ s, rest key (select s) none = sortedBy key (select s) := by
    intro s
    have hall : (select s).filter (fun a => After key none a) = select s :=
      List.filter_eq_self.2 fun a _ => decide_eq_true fun k hk => by cases hk
    rw [rest, hall]
  refine ⟨fun s => ?_, fun s n items h => ?_, fun ss items h a ha => ?_, fun ss items h => ⟨?_, ?_⟩⟩
  · obtain ⟨n, h⟩ := exists_walk (hkeys s) hlimit none
    rw [hrest, ← List.map_replicate] at h
    exact ⟨n, hwalk.2 h⟩
  · have h := hwalk.1 h
    rw [List.map_replicate] at h
    refine ⟨?_, pages_le (hkeys s) hlimit h⟩
    rw [← hrest]
    exact walk_const (hkeys s) hlimit (fun s hs => List.eq_of_mem_replicate hs) h
  · have h := hwalk.1 h
    have hnodup : items.Nodup :=
      (pairwise_of_walk (hkeys' ss) hlimit h).imp fun hlt heq => (heq ▸ hlt).ne rfl
    refine List.count_eq_one_of_mem hnodup (mem_of_walk (hkeys' ss) hlimit h ?_ ?_)
    · rintro rows hrows
      obtain ⟨s, hs, rfl⟩ := List.mem_map.1 hrows
      exact ha s hs
    · rintro k hk
      cases hk
  · exact pairwise_of_walk (hkeys' ss) hlimit (hwalk.1 h)
  · intro a ha
    obtain ⟨-, rows, hrows, hmem⟩ := after_of_walk (hkeys' ss) hlimit (hwalk.1 h) a ha
    obtain ⟨s, hs, rfl⟩ := List.mem_map.1 hrows
    exact ⟨s, hs, hmem⟩

end Keyset

end Sql
