import BifrostTrade.Core.MessageRuns
import Mathlib.Tactic.Linarith

/-!
# No message is lost

`OkUpTo` says of the entries before a position which of them are stored.  It holds up to the saved
offset, and up to the entry that a call of the consumer has come to, in every run whose moves keep
every message; at the end of a stretch it decides what is stored, so that consuming the stretch
again changes nothing (`kept_run`).
-/

namespace Core.MessageCenter

open Py Calls

/-! ## The invariant -/

/-- There is an item of the event, which may have expired. -/
def Redis.Present (db : Redis) (e : Entry) : Prop := (db.items e.event.messageId).isSome

/-- Of the young events before a position, one with an item is replaced by no later one before the
position, and one without was replaced. -/
def OkUpTo (s : World) (x : ℕ) : Prop :=
  ∀ i < x, ∀ e ∈ s.redis.stream[i]?, e.Young s.redis.clock →
    (s.redis.Present e → ∀ j, i < j → j < x → ∀ e' ∈ s.redis.stream[j]?, ¬ Replaces e' e) ∧
    (s.redis.Present e ∨
      ∃ j ∈ s.stored, i < j ∧ ∃ e' ∈ s.redis.stream[j]?, Replaces e' e)

/-- Every item is that of an event that was stored, lives at least as long as the event is young,
and is in the index; and the events before the offset are as they should be. -/
structure Sound (s : World) : Prop where
  apart : (s.redis.stream.map fun e => e.event.messageId).Nodup
  items : ∀ id, ∀ item ∈ s.redis.items id, ∃ i ∈ s.stored, ∃ e ∈ s.redis.stream[i]?,
    e.event.messageId = id ∧ item.1 = e.event.body ∧ e.occurred + messageCenterTtlSec ≤ item.2
  index : ∀ id, (s.redis.items id).isSome → (s.redis.index id).isSome
  stored_lt : ∀ i ∈ s.stored, i < s.redis.stream.length
  offset_le : s.redis.offset.getD 0 ≤ s.redis.stream.length
  ok : OkUpTo s (s.redis.offset.getD 0)

/-- The entries before a position are done with, and those after it follow in the stream. -/
structure Reading (s : World) (x : ℕ) (todo : List Entry) (failed : Bool) : Prop where
  offset_le : s.redis.offset.getD 0 ≤ x
  le_length : x ≤ s.redis.stream.length
  ahead : todo <+: s.redis.stream.drop x
  stored_lt : ∀ i ∈ s.stored, i < x + todo.length
  ok : failed = false → OkUpTo s x

/-- What holds of the world in a phase of a sync. -/
def PhaseOk (s : World) : Phase → Prop
  | .idle => True
  | .located lastId => lastId = s.redis.offset.getD 0
  | .next x todo failed => Reading s x todo failed
  | .parsed x e todo failed => Reading s x (e :: todo) failed
  | .aged x e todo failed now =>
      Reading s x (e :: todo) failed ∧ e.occurred ≤ now ∧ now ≤ s.redis.clock
  | .marked x e todo failed now _ =>
      Reading s x (e :: todo) failed ∧ e.occurred ≤ now ∧ now ≤ s.redis.clock
  | .saved x failed => Reading s x [] failed

variable {s : World} {x : ℕ} {todo : List Entry} {failed : Bool}

theorem OkUpTo.of_le (h : OkUpTo s x) {y : ℕ} (hy : y ≤ x) : OkUpTo s y := by
  intro i hi e he hyoung
  obtain ⟨halone, hthere⟩ := h i (hi.trans_le hy) e he hyoung
  exact ⟨fun hpresent j hij hj => halone hpresent j hij (hj.trans_le hy), hthere⟩

/-! ## Time and events -/

theorem Entry.Young.of_le {e : Entry} {now now' : ℚ} (h : e.Young now') (hle : now ≤ now') :
    e.Young now := by
  unfold Entry.Young at *
  linarith

theorem OkUpTo.pass (h : OkUpTo s x) {d : ℚ} (hd : 0 ≤ d) : OkUpTo (s.pass d) x := by
  intro i hi e he hyoung
  exact h i hi e he (hyoung.of_le (le_add_of_nonneg_right hd))

theorem Sound.pass (h : Sound s) {d : ℚ} (hd : 0 ≤ d) : Sound (s.pass d) :=
  ⟨h.apart, h.items, h.index, h.stored_lt, h.offset_le, h.ok.pass hd⟩

theorem Reading.pass (h : Reading s x todo failed) {d : ℚ} (hd : 0 ≤ d) :
    Reading (s.pass d) x todo failed :=
  ⟨h.offset_le, h.le_length, h.ahead, h.stored_lt, fun hf => (h.ok hf).pass hd⟩

theorem PhaseOk.pass {k : Phase} (h : PhaseOk s k) {d : ℚ} (hd : 0 ≤ d) : PhaseOk (s.pass d) k := by
  cases k with
  | idle => trivial
  | located => exact h
  | next => exact Reading.pass h hd
  | parsed => exact Reading.pass h hd
  | aged => exact ⟨h.1.pass hd, h.2.1, h.2.2.trans (le_add_of_nonneg_right hd)⟩
  | marked => exact ⟨h.1.pass hd, h.2.1, h.2.2.trans (le_add_of_nonneg_right hd)⟩
  | saved => exact Reading.pass h hd

/-- What is at a position of the stream stays there. -/
theorem getElem?_publish {e : Entry} {i : ℕ} (hi : i < s.redis.stream.length) :
    (s.publish e).redis.stream[i]? = s.redis.stream[i]? :=
  List.getElem?_append_left hi

theorem lt_length_of_mem {l : List Entry} {i : ℕ} {e : Entry} (h : e ∈ l[i]?) : i < l.length :=
  (List.getElem?_eq_some_iff.1 h).1

theorem OkUpTo.publish (h : OkUpTo s x) (hx : x ≤ s.redis.stream.length) (e : Entry) :
    OkUpTo (s.publish e) x := by
  intro i hi e' he' hyoung
  rw [getElem?_publish (hi.trans_le hx)] at he'
  obtain ⟨halone, hthere⟩ := h i hi e' he' hyoung
  refine ⟨fun hpresent j hij hj e'' he'' => ?_, hthere.imp_right ?_⟩
  · rw [getElem?_publish (hj.trans_le hx)] at he''
    exact halone hpresent j hij hj e'' he''
  · rintro ⟨j, hj, hij, e'', he'', hreplaces⟩
    refine ⟨j, hj, hij, e'', ?_, hreplaces⟩
    rw [getElem?_publish (lt_length_of_mem he'')]
    exact he''

theorem Sound.publish (h : Sound s) {e : Entry}
    (hfresh : ∀ e' ∈ s.redis.stream, e'.event.messageId ≠ e.event.messageId) :
    Sound (s.publish e) := by
  have hgrows : s.redis.stream.length ≤ (s.publish e).redis.stream.length := by
    show _ ≤ (s.redis.stream ++ [e]).length
    rw [List.length_append]
    exact Nat.le_add_right _ _
  refine ⟨?_, fun id item hitem => ?_, h.index, fun i hi => (h.stored_lt i hi).trans_le hgrows,
    h.offset_le.trans hgrows, h.ok.publish h.offset_le e⟩
  · show ((s.redis.stream ++ [e]).map _).Nodup
    rw [List.map_append, List.map_singleton]
    refine h.apart.append (List.nodup_singleton _) fun id hid hlast => ?_
    obtain ⟨e', he', rfl⟩ := List.mem_map.1 hid
    exact hfresh e' he' (List.mem_singleton.1 hlast)
  · obtain ⟨i, hi, e', he', hitem'⟩ := h.items id item hitem
    refine ⟨i, hi, e', ?_, hitem'⟩
    rw [getElem?_publish (lt_length_of_mem he')]
    exact he'

theorem Reading.publish (h : Reading s x todo failed) (e : Entry) :
    Reading (s.publish e) x todo failed := by
  refine ⟨h.offset_le, ?_, ?_, h.stored_lt, fun hf => (h.ok hf).publish h.le_length e⟩
  · show _ ≤ (s.redis.stream ++ [e]).length
    rw [List.length_append]
    exact h.le_length.trans (Nat.le_add_right _ _)
  · show todo <+: (s.redis.stream ++ [e]).drop x
    rw [List.drop_append_of_le_length h.le_length]
    exact h.ahead.trans (List.prefix_append _ _)

theorem PhaseOk.publish {k : Phase} (h : PhaseOk s k) (e : Entry) : PhaseOk (s.publish e) k := by
  cases k with
  | idle => trivial
  | located => exact h
  | next => exact Reading.publish h e
  | parsed => exact Reading.publish h e
  | aged => exact ⟨h.1.publish e, h.2⟩
  | marked => exact ⟨h.1.publish e, h.2⟩
  | saved => exact Reading.publish h e

/-! ## Items and messages -/

theorem Sound.position_unique (h : Sound s) {i j : ℕ} {e e' : Entry}
    (he : e ∈ s.redis.stream[i]?) (he' : e' ∈ s.redis.stream[j]?)
    (hid : e.event.messageId = e'.event.messageId) : i = j := by
  obtain ⟨hi, rfl⟩ := List.getElem?_eq_some_iff.1 he
  obtain ⟨hj, rfl⟩ := List.getElem?_eq_some_iff.1 he'
  have hi' : i < (s.redis.stream.map fun e => e.event.messageId).length := by rwa [List.length_map]
  have hj' : j < (s.redis.stream.map fun e => e.event.messageId).length := by rwa [List.length_map]
  have hsame : (s.redis.stream.map fun e => e.event.messageId)[i] =
      (s.redis.stream.map fun e => e.event.messageId)[j] := by
    rw [List.getElem_map, List.getElem_map]
    exact hid
  exact h.apart.getElem_inj_iff.1 hsame

/-- A young event is stored where there is an item of it. -/
theorem Sound.stored_iff (h : Sound s) {i : ℕ} {e : Entry} (he : e ∈ s.redis.stream[i]?)
    (hyoung : e.Young s.redis.clock) : s.redis.Stored e ↔ s.redis.Present e := by
  constructor
  · rintro ⟨⟨item, hitem, -⟩, -⟩
    exact Option.isSome_iff_exists.2 ⟨item, hitem⟩
  · intro hpresent
    obtain ⟨item, hitem⟩ := Option.isSome_iff_exists.1 hpresent
    obtain ⟨j, -, e', he', hid, hbody, hlong⟩ := h.items _ item hitem
    obtain rfl := h.position_unique he' he hid
    obtain rfl := Option.some.inj (he.symm.trans he')
    refine ⟨⟨item, hitem, hbody, ?_⟩, h.index _ hpresent⟩
    unfold Entry.Young at hyoung
    linarith

/-- An event with an item was stored. -/
theorem Sound.mem_stored (h : Sound s) {i : ℕ} {e : Entry} (he : e ∈ s.redis.stream[i]?)
    (hpresent : s.redis.Present e) : i ∈ s.stored := by
  obtain ⟨item, hitem⟩ := Option.isSome_iff_exists.1 hpresent
  obtain ⟨j, hj, e', he', hid, -⟩ := h.items _ item hitem
  exact h.position_unique he' he hid ▸ hj

/-! ## One transaction -/

/-- Redis after a transaction that stored an event and removed the message that the marker names,
where it is another's. -/
structure Stores (db db' : Redis) (e : Entry) (prev : Option String) : Prop where
  clock : db'.clock = db.clock
  stream : db'.stream = db.stream
  offset : db'.offset = db.offset
  item : ∃ expires, db'.items e.event.messageId = some (e.event.body, expires) ∧
    e.occurred + messageCenterTtlSec ≤ expires
  index : (db'.index e.event.messageId).isSome
  items : ∀ id, id ≠ e.event.messageId →
    db'.items id = if prev = some id then none else db.items id
  others : ∀ id, id ≠ e.event.messageId →
    db'.index id = if prev = some id then none else db.index id

theorem le_ttlRemaining (age : ℚ) : (messageCenterTtlSec : ℚ) - age ≤ ttlRemaining age := by
  have hceil : (messageCenterTtlSec : ℚ) - age ≤ (⌈(messageCenterTtlSec : ℚ) - age⌉.toNat : ℕ) :=
    (Int.le_ceil _).trans (by exact_mod_cast Int.self_le_toNat _)
  exact hceil.trans (by exact_mod_cast le_max_right 1 _)

/-- An item lives until its event is too old. -/
theorem le_expires {e : Entry} {now clock : ℚ} (hoccurred : e.occurred ≤ now) (hnow : now ≤ clock) :
    e.occurred + messageCenterTtlSec ≤ clock + ttlRemaining (e.age now) := by
  have hage : e.age now = now - e.occurred := max_eq_right (sub_nonneg.2 hoccurred)
  have hle := le_ttlRemaining (e.age now)
  rw [hage] at hle ⊢
  linarith

theorem stores_storeCommands {db : Redis} {e : Entry} {now : ℚ} (hoccurred : e.occurred ≤ now)
    (hnow : now ≤ db.clock) :
    Stores db ((storeCommands e.event (e.age now)).foldl Redis.run db) e none := by
  refine ⟨rfl, rfl, rfl, ⟨_, Function.update_self .., le_expires hoccurred hnow⟩, ?_, ?_, ?_⟩
  · show (Function.update db.index _ _ _).isSome
    rw [Function.update_self]
    rfl
  · exact fun id hid => Function.update_of_ne hid _ _
  · exact fun id hid => Function.update_of_ne hid _ _

/-- What the dedupe commands leave: the marked message is gone where it is another's. -/
theorem run_dedupeCommands (db : Redis) (event : SystemMessageEvent) (age : ℚ) (prev : String) :
    let db' := (dedupeCommands event age prev).foldl Redis.run db
    db'.clock = db.clock ∧ db'.stream = db.stream ∧ db'.offset = db.offset ∧
      ∀ id, id ≠ event.messageId →
        db'.items id = (if orNone prev = some id then none else db.items id) ∧
        db'.index id = (if orNone prev = some id then none else db.index id) := by
  by_cases hother : prev ≠ "" ∧ prev ≠ event.messageId
  · rw [dedupeCommands, if_pos hother, orNone, if_neg hother.1]
    refine ⟨rfl, rfl, rfl, fun id _ => ?_⟩
    by_cases hid : prev = id
    · subst hid
      simp [Redis.run]
    · simp [Redis.run, hid, Function.update_of_ne (Ne.symm hid)]
  · rw [dedupeCommands, if_neg hother]
    refine ⟨rfl, rfl, rfl, fun id hself => ?_⟩
    have hnone : orNone prev ≠ some id := by
      unfold orNone
      split_ifs with hblank
      · exact Option.some_ne_none id ∘ Eq.symm
      · intro heq
        exact hother ⟨hblank, Option.some.inj heq ▸ hself⟩
    rw [if_neg hnone, if_neg hnone]
    exact ⟨rfl, rfl⟩

theorem stores_dedupeCommands {db : Redis} {e : Entry} {now : ℚ} (hoccurred : e.occurred ≤ now)
    (hnow : now ≤ db.clock) (prev : String) :
    Stores db ((dedupeCommands e.event (e.age now) prev ++
      storeCommands e.event (e.age now)).foldl Redis.run db) e (orNone prev) := by
  rw [List.foldl_append]
  obtain ⟨hclock, hstream, hoffset, hothers⟩ :=
    run_dedupeCommands db e.event (e.age now) prev
  have hstore : Stores ((dedupeCommands e.event (e.age now) prev).foldl Redis.run db) _ e none :=
    stores_storeCommands hoccurred (hclock ▸ hnow)
  refine ⟨hstore.clock.trans hclock, hstore.stream.trans hstream, hstore.offset.trans hoffset,
    hstore.item, hstore.index, fun id hid => ?_, fun id hid => ?_⟩
  · exact (hstore.items id hid).trans (hothers id hid).1
  · exact (hstore.others id hid).trans (hothers id hid).2

section Store

variable {e : Entry} {db' : Redis} {prev : Option String}

/-- The entry that is come to. -/
theorem Reading.getElem? (h : Reading s x (e :: todo) failed) : e ∈ s.redis.stream[x]? := by
  obtain ⟨rest, hrest⟩ := h.ahead
  have hdrop : (s.redis.stream.drop x)[0]? = s.redis.stream[x]? := List.getElem?_drop
  rw [← hrest] at hdrop
  exact hdrop.symm

theorem Reading.lt_length (h : Reading s x (e :: todo) failed) : x < s.redis.stream.length :=
  lt_length_of_mem h.getElem?

/-- The stream after the entry that is come to. -/
theorem Reading.ahead_tail (h : Reading s x (e :: todo) failed) :
    todo <+: s.redis.stream.drop (x + 1) := by
  obtain ⟨rest, hrest⟩ := h.ahead
  refine ⟨rest, ?_⟩
  rw [← List.drop_drop, ← hrest]
  rfl

/-- What is known of the marker: of the earlier events that are young, one whose message goes is
replaced by this event, and one that this event replaces goes. -/
structure Agrees (s : World) (x : ℕ) (e : Entry) (prev : Option String) : Prop where
  noOther : ∀ i < x, ∀ e' ∈ s.redis.stream[i]?, e'.Young s.redis.clock →
    prev = some e'.event.messageId → Replaces e e'
  replaced : ∀ i < x, ∀ e' ∈ s.redis.stream[i]?, e'.Young s.redis.clock → Replaces e e' →
    s.redis.Present e' → prev = some e'.event.messageId

/-- The items of the other events after the transaction. -/
theorem Stores.present_iff (hstores : Stores s.redis db' e prev) (h : Sound s)
    (he : e ∈ s.redis.stream[x]?) {i : ℕ} {e' : Entry} (he' : e' ∈ s.redis.stream[i]?)
    (hi : i ≠ x) :
    db'.Present e' ↔ prev ≠ some e'.event.messageId ∧ s.redis.Present e' := by
  have hid : e'.event.messageId ≠ e.event.messageId := fun hid => hi (h.position_unique he' he hid)
  unfold Redis.Present
  rw [hstores.items _ hid]
  split_ifs with hprev <;> simp [hprev]

/-- The events before a position that are as they should be stay so when a later one is stored. -/
theorem OkUpTo.store {y : ℕ} (hok : OkUpTo s y) (h : Sound s)
    (hstores : Stores s.redis db' e prev) (he : e ∈ s.redis.stream[x]?)
    (hagrees : Agrees s x e prev) (hy : y ≤ x) : OkUpTo ⟨db', s.stored ++ [x]⟩ y := by
  intro i hi e' he' hyoung
  show _ ∧ (db'.Present e' ∨ ∃ j ∈ s.stored ++ [x], i < j ∧ ∃ e'' ∈ db'.stream[j]?, _)
  simp only [hstores.stream, hstores.clock] at he' hyoung ⊢
  have hix : i < x := hi.trans_le hy
  obtain ⟨halone, hthere⟩ := hok i hi e' he' hyoung
  have hpresent := hstores.present_iff h he he' hix.ne
  refine ⟨fun hstill => halone (hpresent.1 hstill).2, ?_⟩
  by_cases hprev : prev = some e'.event.messageId
  · -- the event was removed, so this one replaces it
    exact .inr ⟨x, by simp, hix, e, he, hagrees.noOther i hix e' he' hyoung hprev⟩
  · refine hthere.imp (fun hold => hpresent.2 ⟨hprev, hold⟩) ?_
    rintro ⟨j, hj, hreplaced⟩
    exact ⟨j, List.mem_append_left _ hj, hreplaced⟩

/-- With the event that is stored, the events up to the next position are as they should be. -/
theorem OkUpTo.store_succ (hok : OkUpTo s x) (h : Sound s)
    (hstores : Stores s.redis db' e prev) (he : e ∈ s.redis.stream[x]?)
    (hagrees : Agrees s x e prev) : OkUpTo ⟨db', s.stored ++ [x]⟩ (x + 1) := by
  intro i hi e' he' hyoung
  rcases Nat.lt_succ_iff_lt_or_eq.1 hi with hix | rfl
  · obtain ⟨halone, hthere⟩ := hok.store h hstores he hagrees le_rfl i hix e' he' hyoung
    refine ⟨fun hpresent j hij hj e'' he'' hreplaces => ?_, hthere⟩
    rcases Nat.lt_succ_iff_lt_or_eq.1 hj with hjx | rfl
    · exact halone hpresent j hij hjx e'' he'' hreplaces
    · -- what this event replaces is gone
      simp only [hstores.stream, hstores.clock] at he' hyoung he''
      obtain rfl := Option.some.inj (he.symm.trans he'')
      obtain ⟨hkept, hold⟩ := (hstores.present_iff h he he' hix.ne).1 hpresent
      exact hkept (hagrees.replaced i hix e' he' hyoung hreplaces hold)
  · refine ⟨fun _ j hij hj => absurd hj (by omega), .inl ?_⟩
    simp only [hstores.stream] at he'
    obtain rfl := Option.some.inj (he.symm.trans he')
    obtain ⟨expires, hitem, -⟩ := hstores.item
    exact Option.isSome_iff_exists.2 ⟨_, hitem⟩

/-- A transaction keeps what is said of the items. -/
theorem Sound.store (h : Sound s) (hreading : Reading s x (e :: todo) failed)
    (hstores : Stores s.redis db' e prev) (hagrees : Agrees s x e prev) :
    Sound ⟨db', s.stored ++ [x]⟩ := by
  have he := hreading.getElem?
  refine ⟨?_, fun id item hitem => ?_, fun id hsome => ?_, fun i hi => ?_, ?_, ?_⟩
  · simp only [hstores.stream]
    exact h.apart
  · simp only [hstores.stream] at hitem ⊢
    by_cases hid : id = e.event.messageId
    · subst hid
      obtain ⟨expires, hself, hlong⟩ := hstores.item
      obtain rfl := Option.some.inj (hself.symm.trans hitem)
      exact ⟨x, by simp, e, he, rfl, rfl, hlong⟩
    · rw [hstores.items id hid] at hitem
      split_ifs at hitem
      · cases hitem
      · obtain ⟨i, hi, hrest⟩ := h.items id item hitem
        exact ⟨i, List.mem_append_left _ hi, hrest⟩
  · show (db'.index id).isSome
    by_cases hid : id = e.event.messageId
    · exact hid ▸ hstores.index
    · have hsome' : (db'.items id).isSome := hsome
      rw [hstores.items id hid] at hsome'
      rw [hstores.others id hid]
      split_ifs at hsome' ⊢
      · cases hsome'
      · exact h.index id hsome'
  · simp only [hstores.stream]
    rcases List.mem_append.1 hi with hi | hi
    · exact h.stored_lt i hi
    · rw [List.mem_singleton.1 hi]
      exact hreading.lt_length
  · simp only [hstores.stream, hstores.offset]
    exact h.offset_le
  · simp only [hstores.offset]
    exact h.ok.store h hstores he hagrees hreading.offset_le

theorem Reading.store (hreading : Reading s x (e :: todo) failed) (h : Sound s)
    (hstores : Stores s.redis db' e prev) (hagrees : Agrees s x e prev) :
    Reading ⟨db', s.stored ++ [x]⟩ (x + 1) todo failed := by
  have hlt := hreading.lt_length
  refine ⟨?_, ?_, ?_, fun i hi => ?_, fun hfailed => ?_⟩
  · simp only [hstores.offset]
    exact hreading.offset_le.trans (Nat.le_succ x)
  · simp only [hstores.stream]
    exact hlt
  · simp only [hstores.stream]
    exact hreading.ahead_tail
  · rcases List.mem_append.1 hi with hi | hi
    · have hold := hreading.stored_lt i hi
      rw [List.length_cons] at hold
      omega
    · rw [List.mem_singleton.1 hi]
      omega
  · exact (hreading.ok hfailed).store_succ h hstores hreading.getElem? hagrees

/-- An entry that is passed over without a change. -/
theorem Reading.skip (hreading : Reading s x (e :: todo) failed) {failed' : Bool}
    (hok : failed' = false → OkUpTo s (x + 1)) : Reading s (x + 1) todo failed' := by
  have hlt := hreading.lt_length
  refine ⟨hreading.offset_le.trans (Nat.le_succ x), hlt, hreading.ahead_tail, fun i hi => ?_, hok⟩
  have hold := hreading.stored_lt i hi
  rw [List.length_cons] at hold
  omega

/-- An event that is too old, and replaces none that is young. -/
theorem OkUpTo.skip (hok : OkUpTo s x) (he : e ∈ s.redis.stream[x]?)
    (hold : ¬ e.Young s.redis.clock)
    (hnone : ∀ i < x, ∀ e' ∈ s.redis.stream[i]?, Replaces e e' → ¬ e'.Young s.redis.clock) :
    OkUpTo s (x + 1) := by
  intro i hi e' he' hyoung
  rcases Nat.lt_succ_iff_lt_or_eq.1 hi with hix | rfl
  · obtain ⟨halone, hthere⟩ := hok i hix e' he' hyoung
    refine ⟨fun hpresent j hij hj e'' he'' hreplaces => ?_, hthere⟩
    rcases Nat.lt_succ_iff_lt_or_eq.1 hj with hjx | rfl
    · exact halone hpresent j hij hjx e'' he'' hreplaces
    · obtain rfl := Option.some.inj (he.symm.trans he'')
      exact hnone i hix e' he' hreplaces hyoung
  · obtain rfl := Option.some.inj (he.symm.trans he')
    exact absurd hyoung hold

end Store

/-! ## One call -/

/-- What holds before every call. -/
def Inv (s : World) (k : Phase) : Prop := Sound s ∧ PhaseOk s k

theorem young_iff {e : Entry} {now : ℚ} :
    e.Young now ↔ ¬ (messageCenterTtlSec : ℚ) ≤ e.age now := by
  have hpos : (0 : ℚ) < messageCenterTtlSec := by norm_num [messageCenterTtlSec]
  rw [Entry.Young, Entry.age, not_le, max_lt_iff]
  exact ⟨fun h => ⟨hpos, h⟩, fun h => h.2⟩

theorem says_answer (db : Redis) (w : Choice) (c : Call) : Says db c (db.answer w c).2 := by
  cases c with
  | time => rfl
  | xread lastId count =>
    unfold Redis.answer
    cases w.delivery
    · rfl
    · trivial
    · trivial
  | _ =>
    unfold Redis.answer
    cases w.delivery <;> trivial

variable {e : Entry} {w : Choice}

theorem inv_time_next (h : Inv s (.next x (e :: todo) failed)) :
    Inv (serve (.next x (e :: todo) failed) w s .time).1
      (serve (.next x (e :: todo) failed) w s .time).2.1 := by
  show Inv ⟨(s.pass w.elapsed).redis, s.stored ++ []⟩ (.parsed x e todo failed)
  rw [List.append_nil]
  exact ⟨h.1.pass w.nonneg, h.2.pass w.nonneg⟩

theorem inv_time_parsed (h : Inv s (.parsed x e todo failed))
    (hspares : Spares s (.parsed x e todo failed) w .time) :
    Inv (serve (.parsed x e todo failed) w s .time).1
      (serve (.parsed x e todo failed) w s .time).2.1 := by
  have hsound := h.1.pass w.nonneg
  have hreading : Reading (s.pass w.elapsed) x (e :: todo) failed := h.2.pass w.nonneg
  have htimes : if e.Young (s.pass w.elapsed).redis.clock then e.occurred ≤ _ else _ := hspares
  show Inv ⟨(s.pass w.elapsed).redis, s.stored ++ []⟩
    (if (messageCenterTtlSec : ℚ) ≤ e.age (s.pass w.elapsed).redis.clock then
      .next (x + 1) todo failed else .aged x e todo failed (s.pass w.elapsed).redis.clock)
  rw [List.append_nil]
  by_cases hyoung : e.Young (s.pass w.elapsed).redis.clock
  · rw [if_neg (young_iff.1 hyoung)]
    rw [if_pos hyoung] at htimes
    exact ⟨hsound, hreading, htimes, le_rfl⟩
  · rw [if_pos (not_not.1 fun hage => hyoung (young_iff.2 hage))]
    rw [if_neg hyoung] at htimes
    exact ⟨hsound, hreading.skip fun hf => (hreading.ok hf).skip hreading.getElem? hyoung htimes⟩

theorem inv_getOffset (h : Inv s .idle) (hspares : Spares s .idle w .getOffset) :
    Inv (serve .idle w s .getOffset).1 (serve .idle w s .getOffset).2.1 := by
  have hsound := h.1.pass w.nonneg
  unfold serve Redis.answer
  rw [show storedBy .idle w .getOffset = [] from rfl, List.append_nil]
  cases hw : w.delivery with
  | answered => exact ⟨hsound, rfl⟩
  | replyLost =>
    have hnone : s.redis.offset = none := hspares (by rw [hw]; decide)
    exact ⟨hsound, show 0 = s.redis.offset.getD 0 by rw [hnone]; rfl⟩
  | notExecuted =>
    have hnone : s.redis.offset = none := hspares (by rw [hw]; decide)
    exact ⟨hsound, show 0 = s.redis.offset.getD 0 by rw [hnone]; rfl⟩

theorem inv_xread {lastId count : ℕ} (h : Inv s (.located lastId))
    (hspares : Spares s (.located lastId) w (.xread lastId count)) :
    Inv (serve (.located lastId) w s (.xread lastId count)).1
      (serve (.located lastId) w s (.xread lastId count)).2.1 := by
  have hsound := h.1.pass w.nonneg
  obtain rfl : lastId = s.redis.offset.getD 0 := h.2
  unfold serve Redis.answer
  rw [show storedBy (.located _) w (.xread ..) = [] from rfl, List.append_nil]
  cases hw : w.delivery with
  | answered =>
    refine ⟨hsound, le_rfl, hsound.offset_le, List.take_prefix _ _, fun i hi => ?_,
      fun _ => hsound.ok⟩
    have hcount : i < _ + count := hspares hw i hi
    have hlength : i < s.redis.stream.length := h.1.stored_lt i hi
    rw [List.length_take, List.length_drop]
    omega
  | replyLost => exact ⟨hsound, trivial⟩
  | notExecuted => exact ⟨hsound, trivial⟩

theorem inv_getMarker {now : ℚ} {key : String} (h : Inv s (.aged x e todo failed now)) :
    Inv (serve (.aged x e todo failed now) w s (.getMarker key)).1
      (serve (.aged x e todo failed now) w s (.getMarker key)).2.1 := by
  have hsound := h.1.pass w.nonneg
  have hphase : PhaseOk (s.pass w.elapsed) (.aged x e todo failed now) := h.2.pass w.nonneg
  have hskip : Reading (s.pass w.elapsed) (x + 1) todo true :=
    hphase.1.skip fun hf => by cases hf
  unfold serve Redis.answer
  rw [show storedBy (.aged ..) w (.getMarker key) = [] from rfl, List.append_nil]
  cases w.delivery with
  | answered => exact ⟨hsound, hphase⟩
  | replyLost => exact ⟨hsound, hskip⟩
  | notExecuted => exact ⟨hsound, hskip⟩

theorem inv_setOffset (h : Inv s (.next x [] failed))
    (hspares : Spares s (.next x [] failed) w (.setOffset x)) :
    Inv (serve (.next x [] failed) w s (.setOffset x)).1
      (serve (.next x [] failed) w s (.setOffset x)).2.1 := by
  have hsound := h.1.pass w.nonneg
  have hreading : Reading (s.pass w.elapsed) x [] failed := h.2.pass w.nonneg
  have hsaved : failed = false → Inv
      ⟨{ (s.pass w.elapsed).redis with offset := some x }, s.stored⟩ (.saved x failed) := by
    intro hf
    exact ⟨⟨hsound.apart, hsound.items, hsound.index, hsound.stored_lt, hreading.le_length,
        hreading.ok hf⟩,
      ⟨le_rfl, hreading.le_length, hreading.ahead, hreading.stored_lt, hreading.ok⟩⟩
  unfold serve Redis.answer
  rw [show storedBy (.next ..) w (.setOffset x) = [] from rfl, List.append_nil]
  cases hw : w.delivery with
  | answered => exact hsaved (hspares (by rw [hw]; decide))
  | replyLost => exact hsaved (hspares (by rw [hw]; decide))
  | notExecuted => exact ⟨hsound, hreading⟩

theorem inv_exec {k : Phase} {commands : List Command} {prev : Option String}
    (hk : k.storing = some x)
    (hafter : ∀ r, k.after s.redis w (.exec commands) r =
      .next (x + 1) todo (failed || w.delivery = .notExecuted))
    (hsound : Sound (s.pass w.elapsed)) (hreading : Reading (s.pass w.elapsed) x (e :: todo) failed)
    (hstores : Stores (s.pass w.elapsed).redis
      (commands.foldl Redis.run (s.pass w.elapsed).redis) e prev)
    (hagrees : w.delivery ≠ .notExecuted → Agrees (s.pass w.elapsed) x e prev) :
    Inv (serve k w s (.exec commands)).1 (serve k w s (.exec commands)).2.1 := by
  have hexecuted : w.delivery ≠ .notExecuted → Inv
      ⟨commands.foldl Redis.run (s.pass w.elapsed).redis, s.stored ++ [x]⟩
      (.next (x + 1) todo (failed || false)) := by
    intro hw
    rw [Bool.or_false]
    exact ⟨hsound.store hreading hstores (hagrees hw),
      hreading.store hsound hstores (hagrees hw)⟩
  show Inv ⟨(s.redis.answer w (.exec commands)).1, s.stored ++ storedBy k w (.exec commands)⟩
    (k.after s.redis w (.exec commands) (s.redis.answer w (.exec commands)).2)
  rw [hafter, storedBy, hk]
  unfold Redis.answer
  cases hw : w.delivery with
  | answered => exact hexecuted (by rw [hw]; decide)
  | replyLost => exact hexecuted (by rw [hw]; decide)
  | notExecuted =>
    rw [if_pos rfl, List.append_nil]
    refine ⟨hsound, hreading.skip fun hf => ?_⟩
    simp at hf

theorem inv_exec_aged {now : ℚ} {commands : List Command}
    (h : Inv s (.aged x e todo failed now))
    (hallowed : protocol.allowed (.aged x e todo failed now) (.exec commands)) :
    Inv (serve (.aged x e todo failed now) w s (.exec commands)).1
      (serve (.aged x e todo failed now) w s (.exec commands)).2.1 := by
  obtain ⟨hreading, hoccurred, hnow⟩ := h.2.pass w.nonneg
  have hcommands : (if e.event.dedupeKey = "" then some (storeCommands e.event (e.age now))
      else none) = some commands := hallowed
  split_ifs at hcommands with hkey
  obtain rfl := Option.some.inj hcommands
  refine inv_exec rfl (fun _ => rfl) (h.1.pass w.nonneg) hreading
    (stores_storeCommands hoccurred hnow) fun _ => ⟨?_, ?_⟩
  · intro i _ e' _ _ hprev
    cases hprev
  · intro i _ e' _ _ hreplaces
    exact absurd (hreplaces.2.1.symm.trans hkey) hreplaces.1

theorem inv_exec_marked {now : ℚ} {prev : String} {commands : List Command}
    (h : Inv s (.marked x e todo failed now prev))
    (hallowed : protocol.allowed (.marked x e todo failed now prev) (.exec commands))
    (hspares : Spares s (.marked x e todo failed now prev) w (.exec commands)) :
    Inv (serve (.marked x e todo failed now prev) w s (.exec commands)).1
      (serve (.marked x e todo failed now prev) w s (.exec commands)).2.1 := by
  have hsound := h.1.pass w.nonneg
  obtain ⟨hreading, hoccurred, hnow⟩ := h.2.pass w.nonneg
  obtain rfl : _ = commands := Option.some.inj hallowed
  refine inv_exec rfl (fun _ => rfl) hsound hreading (stores_dedupeCommands hoccurred hnow prev)
    fun hw => ?_
  obtain ⟨hnoOther, hreplaced⟩ := hspares hw
  refine ⟨fun i hi e' he' hyoung hprev => ?_, fun i hi e' he' hyoung hreplaces hpresent => ?_⟩
  · unfold orNone at hprev
    split_ifs at hprev
    exact hnoOther i hi e' he' hyoung (Option.some.inj hprev).symm
  · have hstored := (hsound.stored_iff he' hyoung).2 hpresent
    rw [← hreplaced i hi e' he' hyoung hreplaces hstored, orNone, if_neg e'.messageId_ne_empty]

/-- Every call that keeps every message keeps what holds. -/
theorem inv_call (s : World) (k : Phase) (w : Choice) (c : Call) (h : Inv s k)
    (hallowed : protocol.allowed k c) (hspares : Spares s k w c) :
    protocol.reply k c (serve k w s c).2.1 (serve k w s c).2.2 ∧
      Inv (serve k w s c).1 (serve k w s c).2.1 := by
  refine ⟨⟨s.redis, w, rfl, ?_⟩, ?_⟩
  · exact says_answer s.redis w c
  · cases c with
    | time =>
      rcases hallowed with ⟨x, e, todo, failed, rfl⟩ | ⟨x, e, todo, failed, rfl⟩
      · exact inv_time_next h
      · exact inv_time_parsed h hspares
    | getOffset =>
      obtain rfl : k = .idle := hallowed
      exact inv_getOffset h hspares
    | setOffset lastId =>
      obtain ⟨failed, rfl⟩ := hallowed
      exact inv_setOffset h hspares
    | xread lastId count =>
      obtain rfl : k = .located lastId := hallowed
      exact inv_xread h hspares
    | getMarker key =>
      obtain ⟨x, e, todo, failed, now, rfl, rfl⟩ := hallowed
      exact inv_getMarker h
    | exec commands =>
      cases k with
      | aged => exact inv_exec_aged h hallowed
      | marked => exact inv_exec_marked h hallowed hspares
      | _ => cases hallowed

/-! ## Runs -/

theorem inv_step {st : State} {m : Move} (h : Inv st.world st.phase) (hm : m.Meets st) :
    Inv (step st m).world (step st m).phase := by
  cases m with
  | publish e => exact ⟨h.1.publish hm, h.2.publish e⟩
  | pass d hd => exact ⟨h.1.pass hd, h.2.pass hd⟩
  | sync count choices =>
    exact (hm.exec_invariant Inv inv_call (follows_sync count) ⟨h.1, trivial⟩).1

theorem inv_run {clock : ℚ} {moves : List Move}
    (hmoves : Runs.Along step (start clock) (fun _ st m => m.Meets st) moves) :
    Inv (Runs.run step (start clock) moves).world (Runs.run step (start clock) moves).phase := by
  refine Runs.invariant (fun _ st => Inv st.world st.phase) ?_ (fun _ _ hm h => inv_step h hm)
    hmoves
  refine ⟨⟨List.nodup_nil, ?_, ?_, ?_, le_rfl, ?_⟩, trivial⟩
  · intro id item hitem
    cases hitem
  · intro id hsome
    cases hsome
  · exact fun i hi => absurd hi List.not_mem_nil
  · exact fun i hi => absurd hi (Nat.not_lt_zero i)

/-! ## What only grows -/

/-- Events are only added, and the clock does not go back. -/
def Grows (db db' : Redis) : Prop := db.stream <+: db'.stream ∧ db.clock ≤ db'.clock

theorem Grows.trans {db db' db'' : Redis} (h : Grows db db') (h' : Grows db' db'') :
    Grows db db'' := ⟨h.1.trans h'.1, h.2.trans h'.2⟩

theorem run_commands (commands : List Command) (db : Redis) :
    (commands.foldl Redis.run db).stream = db.stream ∧
      (commands.foldl Redis.run db).clock = db.clock := by
  induction commands generalizing db with
  | nil => exact ⟨rfl, rfl⟩
  | cons command commands ih =>
    obtain ⟨hstream, hclock⟩ := ih (db.run command)
    rw [List.foldl_cons, hstream, hclock]
    cases command <;> exact ⟨rfl, rfl⟩

theorem grows_answer (db : Redis) (w : Choice) (c : Call) : Grows db (db.answer w c).1 := by
  have hpass : Grows db { db with clock := db.clock + w.elapsed } :=
    ⟨List.prefix_rfl, le_add_of_nonneg_right w.nonneg⟩
  have hexecute : ∀ db' : Redis, Grows db' (db'.execute c).1 := by
    intro db'
    cases c with
    | exec commands =>
      obtain ⟨hstream, hclock⟩ := run_commands commands db'
      exact ⟨hstream.symm ▸ List.prefix_rfl, hclock.ge⟩
    | _ => exact ⟨List.prefix_rfl, le_rfl⟩
  unfold Redis.answer
  cases c with
  | time => exact hpass
  | _ =>
    cases w.delivery with
    | answered => exact hpass.trans (hexecute _)
    | replyLost => exact hpass.trans (hexecute _)
    | notExecuted => exact hpass

theorem grows_step (st : State) (m : Move) : Grows st.world.redis (step st m).world.redis := by
  cases m with
  | publish e => exact ⟨List.prefix_append _ _, le_rfl⟩
  | pass d hd => exact ⟨List.prefix_rfl, le_add_of_nonneg_right hd⟩
  | sync count choices =>
    refine (exec_invariant (fun (s : World) _ => Grows st.world.redis s.redis)
      (fun s k w c h _ => ?_) (follows_sync count) ⟨List.prefix_rfl, le_rfl⟩ choices).1
    exact ⟨⟨s.redis, w, rfl, says_answer s.redis w c⟩, h.trans (grows_answer s.redis w c)⟩

theorem grows_run (st : State) (moves : List Move) :
    Grows st.world.redis (Runs.run step st moves).world.redis := by
  induction moves generalizing st with
  | nil => exact ⟨List.prefix_rfl, le_rfl⟩
  | cons m moves ih => exact (grows_step st m).trans (ih (step st m))

/-! ## Every message is kept -/

/-- At the end of a stretch every entry before it is done with. -/
theorem reading_of_consumed {k : Phase} (h : PhaseOk s k) (hx : k.consumed = some x) :
    Reading s x [] false := by
  unfold Phase.consumed at hx
  split at hx
  · obtain rfl := Option.some.inj hx
    exact h
  · obtain rfl := Option.some.inj hx
    exact h
  · cases hx

theorem Inv.kept {st : State} (h : Inv st.world st.phase) : Kept st := by
  refine ⟨fun i hi e he hyoung => ?_, fun x hx i e he hyoung => ?_⟩
  · rw [h.1.stored_iff he hyoung]
    exact (h.1.ok i hi e he hyoung).2
  · have hreading := reading_of_consumed h.2 hx
    rw [h.1.stored_iff he hyoung]
    constructor
    · intro hpresent
      have hi : i < x := hreading.stored_lt i (h.1.mem_stored he hpresent)
      exact ⟨hi, (hreading.ok rfl i hi e he hyoung).1 hpresent⟩
    · rintro ⟨hi, hnone⟩
      refine (hreading.ok rfl i hi e he hyoung).2.resolve_right ?_
      rintro ⟨j, hj, hij, e', he', hreplaces⟩
      exact hnone j hij (hreading.stored_lt j hj) e' he' hreplaces

/-- What is stored after a stretch is a matter of the stretch alone. -/
theorem sameMessages {st st' : State} (h : Inv st.world st.phase) (h' : Inv st'.world st'.phase)
    (hgrows : Grows st.world.redis st'.world.redis) (hx : st.phase.consumed = some x)
    (hx' : st'.phase.consumed = some x) : SameMessages st st' := by
  intro e hmem hyoung
  obtain ⟨i, he'⟩ := List.getElem?_of_mem hmem
  have hlength := (reading_of_consumed h.2 hx).le_length
  have hsame : ∀ j < st.world.redis.stream.length,
      st'.world.redis.stream[j]? = st.world.redis.stream[j]? := by
    intro j hj
    obtain ⟨rest, hrest⟩ := hgrows.1
    rw [← hrest, List.getElem?_append_left hj]
  rw [h'.kept.exact x hx' i e he' hyoung]
  by_cases hi : i < st.world.redis.stream.length
  · have he : e ∈ st.world.redis.stream[i]? := (hsame i hi).symm.trans he'
    rw [h.kept.exact x hx i e he (hyoung.of_le hgrows.2)]
    refine and_congr_right fun _ => forall₃_congr fun j _ hj => ?_
    rw [hsame j (hj.trans_le hlength)]
  · -- an event that was published later is stored in neither
    refine iff_of_false (fun hstored => ?_) fun hremains => hi (hremains.1.trans_le hlength)
    obtain ⟨⟨item, hitem, -⟩, -⟩ := hstored
    obtain ⟨j, -, e', hj, hid, -⟩ := h.1.items _ item hitem
    have hjlt := lt_length_of_mem hj
    obtain rfl := h'.1.position_unique ((hsame j hjlt).trans hj) he' hid
    exact hi hjlt

/-- In every state of every run whose moves keep every message: a young event that the offset is at
or past is stored, unless a later one of its dedupe key that occurred within the dedupe window of it
was stored; when a stretch of the stream has been consumed, the young events that are stored are
those before its end which no later one before its end replaces; and consuming the stream up to the
same place again, however often calls failed or the process stopped in between, leaves the same
messages. -/
theorem kept_run (clock : ℚ) {moves : List Move}
    (hmoves : Runs.Along step (start clock) (fun _ st m => m.Meets st) moves) :
    Kept (Runs.run step (start clock) moves) ∧
      ∀ pre post, moves = pre ++ post → ∀ x,
        (Runs.run step (start clock) pre).phase.consumed = some x →
        (Runs.run step (start clock) moves).phase.consumed = some x →
          SameMessages (Runs.run step (start clock) pre) (Runs.run step (start clock) moves) := by
  have h := inv_run hmoves
  refine ⟨h.kept, ?_⟩
  rintro pre post rfl x hx hx'
  have happend : Runs.run step (start clock) (pre ++ post) =
      Runs.run step (Runs.run step (start clock) pre) post := List.foldl_append
  refine sameMessages (inv_run hmoves.of_append) h ?_ hx hx'
  rw [happend]
  exact grows_run _ post

/-! ## Runs of three events -/

/-- Events of one dedupe key: the first, one soon after it, and one that occurs late. -/
inductive Sample where
  | first
  | soon
  | late

/-- Its id. -/
def Sample.messageId : Sample → String
  | first => "first"
  | soon => "soon"
  | late => "late"

/-- When it occurred. -/
def Sample.occurred : Sample → ℚ
  | first => 1000
  | soon => 1010
  | late => 1100

/-- The fields of its entry. -/
def Sample.fields (e : Sample) : RedisHash.Hash :=
  [("message_id", e.messageId), ("topic", "ib.connection"),
    ("occurred_at", reprFloat (.fin e.occurred)), ("dedupe_key", "ib.connection:ib_ingestor:host")]

/-- The event that is parsed from its entry. -/
def Sample.event (e : Sample) : SystemMessageEvent where
  messageId := e.messageId
  topic := "ib.connection"
  level := "info"
  service := ""
  slot := "host"
  clientId := none
  account := none
  statusFrom := "unknown"
  statusTo := "unknown"
  title := ""
  message := ""
  reason := none
  occurredAt := .fin e.occurred
  dedupeKey := "ib.connection:ib_ingestor:host"

/-- An event with its time is parsed without the clock. -/
theorem parse_of_time {fields : RedisHash.Hash} {raw : String} {d : Double}
    (hraw : fields.lookup "occurred_at" = some raw) (hblank : strip raw ≠ "")
    (hd : readFloat raw = some d) (now now' : ℚ) :
    parseSystemMessageEvent now fields = parseSystemMessageEvent now' fields := by
  have htime : ∀ default, coerceFloat (fields.lookup "occurred_at") default = d := by
    intro default
    rw [hraw, coerceFloat, textOrEmpty, Option.getD_some, if_neg hblank, Option.bind_some, hd,
      Option.getD_some]
  unfold parseSystemMessageEvent
  simp only [htime]

theorem Sample.parses (e : Sample) (now : ℚ) :
    parseSystemMessageEvent now e.fields = some e.event := by
  have hread : ∀ e : Sample, readFloat (reprFloat (.fin e.occurred)) = some (.fin e.occurred) ∧
      strip (reprFloat (.fin e.occurred)) ≠ "" ∧
        parseSystemMessageEvent 0 e.fields = some e.event := by
    rintro (_ | _ | _) <;> decide +kernel
  obtain ⟨hd, hblank, hparse⟩ := hread e
  rw [parse_of_time rfl hblank hd now 0, hparse]

/-- Its entry. -/
def Sample.entry (e : Sample) : Entry where
  fields := e.fields
  event := e.event
  occurred := e.occurred
  parses := e.parses
  finite := rfl

/-- The call works at once. -/
def Choice.answered : Choice := ⟨.answered, 0, le_rfl⟩

/-- The call is not executed. -/
def Choice.notExecuted : Choice := ⟨.notExecuted, 0, le_rfl⟩

/-- A number of seconds passes. -/
def pass (d : ℕ) : Move := .pass d d.cast_nonneg

/-- The choices of a call that reads as many entries, with one for the offset that it saves. -/
def reads (entries : ℕ) (save : Choice) : List Choice :=
  List.replicate (2 + 4 * entries) .answered ++ [save]

/-- A stretch of two events whose offset is not saved, the stretch again, and one more event. -/
def readTwice : List Move :=
  [.publish Sample.first.entry, pass 10, .publish Sample.soon.entry,
    .sync 100 (reads 2 .notExecuted), pass 5, .sync 100 (reads 2 .answered), pass 90,
    .publish Sample.late.entry, .sync 100 (reads 1 .answered)]

theorem kept_readTwice :
    Kept (Runs.run step (start 1000) readTwice) ∧
      ∀ pre post, readTwice = pre ++ post → ∀ x,
        (Runs.run step (start 1000) pre).phase.consumed = some x →
        (Runs.run step (start 1000) readTwice).phase.consumed = some x →
          SameMessages (Runs.run step (start 1000) pre) (Runs.run step (start 1000) readTwice) :=
  kept_run 1000 (by decide +kernel)

/-- Both events are read after a time in which nothing was consumed. -/
def catchUp : List Move :=
  [.publish Sample.first.entry, pass 100, .publish Sample.late.entry,
    .sync 100 (reads 2 .answered)]

/-- The transaction of the event fails, and the offset is saved. -/
def lostTransaction : List Move :=
  [.publish Sample.first.entry,
    .sync 100 (List.replicate 5 .answered ++ [.notExecuted, .answered])]

/-- The second event is read when the marker of the first has expired. -/
def readLate : List Move :=
  [.publish Sample.first.entry, .sync 100 (reads 1 .answered), pass 45,
    .publish Sample.soon.entry, .sync 100 (reads 1 .answered)]

/-- The offset cannot be read, so the stream is consumed from its start again. -/
def unreadOffset : List Move := [.sync 100 (.notExecuted :: reads 2 .answered)]

/-- An event is replaced by one that occurred much later; an event is lost with a failed
transaction; and consuming the same stretch again removes a message. -/
theorem not_kept :
    ¬ Kept (Runs.run step (start 1000) catchUp) ∧
    ¬ Kept (Runs.run step (start 1000) lostTransaction) ∧
    (Runs.run step (start 1000) readLate).phase.consumed = some 2 ∧
    (Runs.run step (start 1000) (readLate ++ unreadOffset)).phase.consumed = some 2 ∧
    ¬ SameMessages (Runs.run step (start 1000) readLate)
      (Runs.run step (start 1000) (readLate ++ unreadOffset)) := by
  refine ⟨fun h => absurd h.kept (by decide +kernel), fun h => absurd h.kept (by decide +kernel),
    by decide +kernel, by decide +kernel, by decide +kernel⟩

end Core.MessageCenter
