import Mathlib.Data.List.Sort
import Mathlib.Tactic.Common

/-!
# Streams with a consumer group

A log of entries with ascending ids, read by the only consumer of one group: entries are delivered
in order, stay pending until acknowledged, and the oldest may be trimmed when one is added.
-/

namespace Streams

/-- A stream and its group: the last id delivered, and the ids delivered and not acknowledged. -/
structure Stream (φ : Type) where
  entries : List (ℕ × φ)
  lastId : ℕ
  grouped : Bool
  delivered : ℕ
  pending : List ℕ
  entries_asc : (entries.map Prod.fst).Pairwise (· < ·)
  entries_le : ∀ e ∈ entries, e.1 ≤ lastId
  pending_asc : pending.Pairwise (· < ·)
  pending_le : ∀ i ∈ pending, i ≤ delivered
  delivered_le : delivered ≤ lastId
  ungrouped : grouped = false → delivered = 0 ∧ pending = []

namespace Stream

variable {φ : Type}

/-- No entries and no group. -/
def empty : Stream φ where
  entries := []
  lastId := 0
  grouped := false
  delivered := 0
  pending := []
  entries_asc := List.Pairwise.nil
  entries_le := by simp
  pending_asc := List.Pairwise.nil
  pending_le := by simp
  delivered_le := le_rfl
  ungrouped := fun _ => ⟨rfl, rfl⟩

/-- The fields of an entry that is still there. -/
def find (s : Stream φ) (i : ℕ) : Option φ := s.entries.lookup i

/-- The entries the group has not been given. -/
def undelivered (s : Stream φ) : List (ℕ × φ) := s.entries.filter fun e => s.delivered < e.1

/-- `XGROUP CREATE key group 0`; an error where the group exists. -/
def createGroup (s : Stream φ) : Option (Stream φ) :=
  if s.grouped then none
  else some { s with grouped := true, ungrouped := fun h => by cases h }

/-- The number of entries an `XADD` drops when it could drop `trim` and has to keep `maxlen`. -/
def dropped (s : Stream φ) (maxlen trim : ℕ) : ℕ := min trim (s.entries.length + 1 - maxlen)

theorem entries_append_asc (s : Stream φ) (fields : φ) :
    ((s.entries ++ [(s.lastId + 1, fields)]).map Prod.fst).Pairwise (· < ·) := by
  rw [List.map_append, List.pairwise_append]
  refine ⟨s.entries_asc, List.pairwise_singleton _ _, fun i hi j hj => ?_⟩
  obtain ⟨e, he, rfl⟩ := List.mem_map.1 hi
  have hle := s.entries_le e he
  obtain rfl : j = s.lastId + 1 := by simpa using hj
  omega

/-- `XADD key MAXLEN ~ maxlen * fields`: the approximate trimming keeps at least `maxlen`. -/
def add (s : Stream φ) (maxlen trim : ℕ) (fields : φ) : Stream φ :=
  { s with
    entries := (s.entries ++ [(s.lastId + 1, fields)]).drop (s.dropped maxlen trim)
    lastId := s.lastId + 1
    entries_asc := (s.entries_append_asc fields).sublist ((List.drop_sublist _ _).map _)
    entries_le := by
      intro e he
      rcases List.mem_append.1 (List.mem_of_mem_drop he) with he | he
      · have hle := s.entries_le e he
        omega
      · rw [List.mem_singleton.1 he]
    delivered_le := s.delivered_le.trans (Nat.le_succ _) }

/-- `XREADGROUP` with the id `0`: the oldest pending messages, without fields where the entry was
trimmed; an error without a group. -/
def readPending (s : Stream φ) (count : ℕ) : Option (List (ℕ × Option φ)) :=
  if s.grouped then some ((s.pending.take count).map fun i => (i, s.find i)) else none

theorem undelivered_asc (s : Stream φ) : (s.undelivered.map Prod.fst).Pairwise (· < ·) :=
  s.entries_asc.sublist (List.filter_sublist.map _)

theorem lt_of_mem_undelivered {s : Stream φ} {e : ℕ × φ} (h : e ∈ s.undelivered) :
    s.delivered < e.1 :=
  of_decide_eq_true (List.mem_filter.1 h).2

/-- The last id delivered after the messages given. -/
def deliveredAfter (s : Stream φ) (given : List (ℕ × φ)) : ℕ :=
  (given.getLast?.map Prod.fst).getD s.delivered

theorem le_deliveredAfter (s : Stream φ) {given : List (ℕ × φ)}
    (hasc : (given.map Prod.fst).Pairwise (· < ·)) {e : ℕ × φ} (he : e ∈ given) :
    e.1 ≤ s.deliveredAfter given := by
  obtain ⟨given, last, rfl⟩ := List.eq_nil_or_concat given |>.resolve_left (List.ne_nil_of_mem he)
  rw [List.concat_eq_append] at *
  rw [deliveredAfter, List.getLast?_concat, Option.map_some, Option.getD_some]
  rw [List.map_append, List.pairwise_append] at hasc
  rcases List.mem_append.1 he with he | he
  · exact (hasc.2.2 _ (List.mem_map_of_mem he) last.1 (by simp)).le
  · rw [List.mem_singleton.1 he]

theorem deliveredAfter_mem (s : Stream φ) (given : List (ℕ × φ)) :
    s.deliveredAfter given = s.delivered ∨ ∃ e ∈ given, s.deliveredAfter given = e.1 := by
  rcases List.eq_nil_or_concat given with rfl | ⟨given, last, rfl⟩
  · exact .inl rfl
  · refine .inr ⟨last, by simp, ?_⟩
    rw [deliveredAfter, List.concat_eq_append, List.getLast?_concat, Option.map_some,
      Option.getD_some]

theorem delivered_le_deliveredAfter {s : Stream φ} {given : List (ℕ × φ)}
    (hsub : given ⊆ s.undelivered) : s.delivered ≤ s.deliveredAfter given := by
  rcases s.deliveredAfter_mem given with h | ⟨e, he, h⟩
  · exact h.ge
  · rw [h]
    exact (lt_of_mem_undelivered (hsub he)).le

/-- `XREADGROUP` with the id `>`: the oldest undelivered messages, pending from now on. -/
def readNew (s : Stream φ) (count : ℕ) : Option (Stream φ × List (ℕ × φ)) :=
  if hg : s.grouped then
    let given := s.undelivered.take count
    some
      ({ s with
          delivered := s.deliveredAfter given
          pending := s.pending ++ given.map Prod.fst
          pending_asc := by
            rw [List.pairwise_append]
            refine ⟨s.pending_asc, s.undelivered_asc.sublist ((List.take_sublist _ _).map _), ?_⟩
            intro i hi j hj
            obtain ⟨e, he, rfl⟩ := List.mem_map.1 hj
            have hle := s.pending_le i hi
            have hlt := lt_of_mem_undelivered (List.mem_of_mem_take he)
            omega
          pending_le := by
            intro i hi
            rcases List.mem_append.1 hi with hi | hi
            · exact (s.pending_le i hi).trans
                (delivered_le_deliveredAfter fun e he => List.mem_of_mem_take he)
            · obtain ⟨e, he, rfl⟩ := List.mem_map.1 hi
              exact s.le_deliveredAfter
                (s.undelivered_asc.sublist ((List.take_sublist _ _).map _)) he
          delivered_le := by
            rcases s.deliveredAfter_mem given with h | ⟨e, he, h⟩
            · exact h.le.trans s.delivered_le
            · rw [h]
              exact s.entries_le e (List.mem_of_mem_filter (List.mem_of_mem_take he))
          ungrouped := fun h => absurd hg (by simp [h]) }, given)
  else none

/-- `XACK`: the message is no longer pending; the number of messages that were. -/
def ack (s : Stream φ) (i : ℕ) : Stream φ × ℕ :=
  ({ s with
      pending := s.pending.filter (· ≠ i)
      pending_asc := s.pending_asc.sublist List.filter_sublist
      pending_le := fun j hj => s.pending_le j (List.mem_of_mem_filter hj)
      ungrouped := fun h => ⟨(s.ungrouped h).1, by simp [(s.ungrouped h).2]⟩ },
    if i ∈ s.pending then 1 else 0)

/-! ## What the operations do -/

variable {s s' : Stream φ} {maxlen : ℕ}

theorem nodup_entries (s : Stream φ) : (s.entries.map Prod.fst).Nodup :=
  s.entries_asc.imp fun h => h.ne

theorem lookup_eq_some_iff {l : List (ℕ × φ)} (h : (l.map Prod.fst).Nodup) {i : ℕ} {f : φ} :
    l.lookup i = some f ↔ (i, f) ∈ l := by
  induction l with
  | nil => simp
  | cons a l ih =>
    rw [List.map_cons, List.nodup_cons] at h
    rw [List.lookup_cons, List.mem_cons]
    by_cases heq : i = a.1
    · have hnot : (i, f) ∉ l := fun hmem => h.1 (heq ▸ List.mem_map_of_mem hmem)
      rw [heq, beq_self_eq_true]
      simp only [Option.some.injEq, Prod.ext_iff, true_and]
      exact ⟨fun h => .inl h.symm, fun h => (h.resolve_right (heq ▸ hnot)).symm⟩
    · rw [beq_false_of_ne heq, ih h.2]
      simp [Prod.ext_iff, heq]

theorem find_eq_some_iff {i : ℕ} {f : φ} : s.find i = some f ↔ (i, f) ∈ s.entries :=
  lookup_eq_some_iff s.nodup_entries

theorem of_createGroup (h : s.createGroup = some s') :
    s'.entries = s.entries ∧ s'.lastId = s.lastId ∧ s'.delivered = s.delivered ∧
      s'.pending = s.pending := by
  unfold createGroup at h
  split_ifs at h
  rw [← Option.some.inj h]
  exact ⟨rfl, rfl, rfl, rfl⟩

theorem drop_undelivered (s : Stream φ) (count : ℕ) :
    (s.entries.filter fun e => s.deliveredAfter (s.undelivered.take count) < e.1) =
      s.undelivered.drop count := by
  have hasc := s.undelivered_asc
  have hle : s.delivered ≤ s.deliveredAfter (s.undelivered.take count) :=
    delivered_le_deliveredAfter fun e he => List.mem_of_mem_take he
  have hfilter : (s.entries.filter fun e =>
      s.deliveredAfter (s.undelivered.take count) < e.1) =
      s.undelivered.filter fun e => s.deliveredAfter (s.undelivered.take count) < e.1 := by
    conv_rhs => rw [undelivered]
    rw [List.filter_filter]
    refine List.filter_congr fun e _ => ?_
    rw [Bool.eq_iff_iff, Bool.and_eq_true, decide_eq_true_eq, decide_eq_true_eq]
    exact ⟨fun h => ⟨h, decide_eq_true (hle.trans_lt h)⟩, fun h => h.1⟩
  have hsplit := List.take_append_drop count s.undelivered
  rw [← hsplit, List.map_append, List.pairwise_append] at hasc
  rw [hfilter]
  conv_lhs => arg 2; rw [← hsplit]
  rw [List.filter_append, List.filter_eq_nil_iff.2, List.nil_append, List.filter_eq_self.2]
  · intro e he
    refine decide_eq_true ?_
    rcases s.deliveredAfter_mem (s.undelivered.take count) with h | ⟨e', he', h⟩
    · rw [h]
      exact lt_of_mem_undelivered (List.mem_of_mem_drop he)
    · rw [h]
      exact hasc.2.2 _ (List.mem_map_of_mem he') _ (List.mem_map_of_mem he)
  · intro e he
    have hle := s.le_deliveredAfter hasc.1 he
    simpa using hle

/-- What the read with `>` gives, and what it leaves. -/
theorem of_readNew {count : ℕ} {given : List (ℕ × φ)}
    (h : s.readNew count = some (s', given)) :
    given = s.undelivered.take count ∧ s'.entries = s.entries ∧ s'.lastId = s.lastId ∧
      s'.pending = s.pending ++ given.map Prod.fst ∧
      s'.undelivered = s.undelivered.drop count ∧ s.delivered ≤ s'.delivered := by
  unfold readNew at h
  split_ifs at h
  obtain ⟨rfl, rfl⟩ := Prod.mk.inj (Option.some.inj h)
  exact ⟨rfl, rfl, rfl, rfl, s.drop_undelivered count,
    delivered_le_deliveredAfter fun e he => List.mem_of_mem_take he⟩

theorem undelivered_ack (i : ℕ) : (s.ack i).1.undelivered = s.undelivered := rfl

theorem mem_pending_ack {i j : ℕ} : j ∈ (s.ack i).1.pending ↔ j ∈ s.pending ∧ j ≠ i := by
  show j ∈ s.pending.filter (· ≠ i) ↔ _
  rw [List.mem_filter, decide_eq_true_eq]

/-- An acknowledgement takes the message out of what is pending. -/
theorem pending_ack_perm {i : ℕ} (h : i ∈ s.pending) :
    (i :: (s.ack i).1.pending).Perm s.pending := by
  have hnodup : s.pending.Nodup := s.pending_asc.imp fun hlt => hlt.ne
  have herase : (s.ack i).1.pending = s.pending.erase i := by
    rw [hnodup.erase_eq_filter]
    refine List.filter_congr fun j _ => ?_
    rw [Bool.eq_iff_iff, decide_eq_true_eq, bne_iff_ne]
  rw [herase]
  exact (List.perm_cons_erase h).symm

/-- An `XADD` that drops neither an undelivered nor a pending entry. -/
def Spares (s : Stream φ) (maxlen trim : ℕ) : Prop :=
  ∀ e ∈ s.entries.take (s.dropped maxlen trim), e.1 ≤ s.delivered ∧ e.1 ∉ s.pending

instance (s : Stream φ) (maxlen trim : ℕ) : Decidable (s.Spares maxlen trim) :=
  inferInstanceAs (Decidable (∀ e ∈ _, _))

theorem dropped_le (s : Stream φ) {maxlen : ℕ} (hmax : 0 < maxlen) (trim : ℕ) :
    s.dropped maxlen trim ≤ s.entries.length := by
  unfold dropped
  omega

theorem entries_add (hmax : 0 < maxlen) (trim : ℕ) (fields : φ) :
    (s.add maxlen trim fields).entries =
      s.entries.drop (s.dropped maxlen trim) ++ [(s.lastId + 1, fields)] :=
  List.drop_append_of_le_length (s.dropped_le hmax trim)

theorem mem_entries_add (hmax : 0 < maxlen) {trim : ℕ} {fields : φ} {e : ℕ × φ}
    (hspares : s.Spares maxlen trim) (he : e ∈ s.entries)
    (hkept : s.delivered < e.1 ∨ e.1 ∈ s.pending) : e ∈ (s.add maxlen trim fields).entries := by
  rw [entries_add hmax]
  refine List.mem_append_left _ ?_
  rw [← List.take_append_drop (s.dropped maxlen trim) s.entries] at he
  refine (List.mem_append.1 he).resolve_left fun htake => ?_
  obtain ⟨hle, hpending⟩ := hspares e htake
  rcases hkept with hlt | hmem
  exacts [absurd hlt (not_lt.2 hle), hpending hmem]

/-- The new entry is undelivered behind the others. -/
theorem undelivered_add (hmax : 0 < maxlen) {trim : ℕ} {fields : φ}
    (hspares : s.Spares maxlen trim) :
    (s.add maxlen trim fields).undelivered = s.undelivered ++ [(s.lastId + 1, fields)] := by
  have hnew : s.delivered < s.lastId + 1 := Nat.lt_succ_of_le s.delivered_le
  have hdropped : (s.entries.take (s.dropped maxlen trim)).filter
      (fun e => s.delivered < e.1) = [] := by
    rw [List.filter_eq_nil_iff]
    intro e he
    simpa using (hspares e he).1
  show ((s.add maxlen trim fields).entries.filter fun e => s.delivered < e.1) = _
  rw [entries_add hmax, List.filter_append, List.filter_cons_of_pos (by simpa using hnew),
    List.filter_nil, undelivered]
  conv_rhs => rw [← List.take_append_drop (s.dropped maxlen trim) s.entries]
  rw [List.filter_append, hdropped, List.nil_append]

end Stream

end Streams
