import BifrostTrade.Core.MessageCenter
import BifrostTrade.Lib.Runs

/-!
# Runs of the message center's consumer

Events are published, time passes, and `sync_events_for_consumer` is called with calls that may
fail, to its end or until the process stops.  `Kept` is what should hold in every state, `Spares`
the calls that keep it so, and `follows_sync` what a call of the consumer does step by step.
-/

namespace Core.MessageCenter

open Py Calls

/-! ## What is stored -/

/-- The event is younger than its time to live. -/
def Entry.Young (e : Entry) (now : ℚ) : Prop := now - e.occurred < messageCenterTtlSec

instance (e : Entry) (now : ℚ) : Decidable (e.Young now) := inferInstanceAs (Decidable (_ < _))

/-- The event is stored as a message. -/
def Redis.Stored (db : Redis) (e : Entry) : Prop :=
  (∃ item ∈ db.items e.event.messageId, item.1 = e.event.body ∧ db.clock < item.2) ∧
    (db.index e.event.messageId).isSome

instance (db : Redis) (e : Entry) : Decidable (db.Stored e) := inferInstanceAs (Decidable (_ ∧ _))

/-- An event of the same dedupe key that occurred within the dedupe window of another. -/
def Replaces (later earlier : Entry) : Prop :=
  earlier.event.dedupeKey ≠ "" ∧ later.event.dedupeKey = earlier.event.dedupeKey ∧
    |later.occurred - earlier.occurred| ≤ messageCenterDedupeWindowSec

instance (later earlier : Entry) : Decidable (Replaces later earlier) :=
  inferInstanceAs (Decidable (_ ∧ _))

/-! ## The system -/

/-- Where a call of `sync_events_for_consumer` is.  `x` is the position of the entry it has come to,
and `failed` says that one before it was not stored because a call failed. -/
inductive Phase where
  | idle
  | located (lastId : ℕ)
  | next (x : ℕ) (todo : List Entry) (failed : Bool)
  | parsed (x : ℕ) (e : Entry) (todo : List Entry) (failed : Bool)
  | aged (x : ℕ) (e : Entry) (todo : List Entry) (failed : Bool) (now : ℚ)
  | marked (x : ℕ) (e : Entry) (todo : List Entry) (failed : Bool) (now : ℚ) (prev : String)
  | saved (x : ℕ) (failed : Bool)

/-- `age_sec` of an entry. -/
def Entry.age (e : Entry) (now : ℚ) : ℚ := max 0 (now - e.occurred)

/-- The phase after a call and its reply. -/
def Phase.after (db : Redis) (w : Choice) : Phase → (c : Call) → Option (Reply c) → Phase
  | idle, .getOffset, r => located ((r.getD none).getD 0)
  | located _, .xread .., none => idle
  | located lastId, .xread _ count, some _ => next lastId ((db.stream.drop lastId).take count) false
  | next x (e :: todo) failed, .time, _ => parsed x e todo failed
  | parsed x e todo failed, .time, r =>
      if (messageCenterTtlSec : ℚ) ≤ e.age (r.getD 0) then next (x + 1) todo failed
      else aged x e todo failed (r.getD 0)
  | aged x _ todo _ _, .getMarker _, none => next (x + 1) todo true
  | aged x e todo failed now, .getMarker _, some marker =>
      marked x e todo failed now (strip (textOrEmpty marker))
  | aged x _ todo failed _, .exec _, _ => next (x + 1) todo (failed || w.delivery = .notExecuted)
  | marked x _ todo failed _ _, .exec _, _ =>
      next (x + 1) todo (failed || w.delivery = .notExecuted)
  | next x [] failed, .setOffset _, _ => saved x failed
  | k, _, _ => k

/-- The entry that a call stores. -/
def Phase.storing : Phase → Option ℕ
  | aged x .. => some x
  | marked x .. => some x
  | _ => none

/-- Redis, and the positions of the entries whose transaction was executed. -/
structure World where
  redis : Redis
  stored : List ℕ

/-- The positions that a call stores. -/
def storedBy (k : Phase) (w : Choice) : Call → List ℕ
  | .exec _ => if w.delivery = .notExecuted then [] else k.storing.toList
  | _ => []

/-- A call within a sync, with what becomes of it. -/
def serve (k : Phase) (w : Choice) (s : World) (c : Call) : World × Phase × Option (Reply c) :=
  let r := s.redis.answer w c
  (⟨r.1, s.stored ++ storedBy k w c⟩, k.after s.redis w c r.2, r.2)

/-- The world, and where the last call of `sync_events_for_consumer` ended or stopped. -/
structure State where
  world : World
  phase : Phase

/-- An event is published, time passes, or `sync_events_for_consumer` is called; the process stops
where its choices run out. -/
inductive Move where
  | publish (e : Entry)
  | pass (d : ℚ) (nonneg : 0 ≤ d)
  | sync (count : ℕ) (choices : List Choice)

/-- Time passes. -/
def World.pass (s : World) (d : ℚ) : World :=
  { s with redis := { s.redis with clock := s.redis.clock + d } }

/-- An entry is appended to the stream. -/
def World.publish (s : World) (e : Entry) : World :=
  { s with redis := { s.redis with stream := s.redis.stream ++ [e] } }

/-- A move of the system. -/
def step (st : State) : Move → State
  | .publish e => { st with world := st.world.publish e }
  | .pass d _ => { st with world := st.world.pass d }
  | .sync count choices =>
      let r := exec serve (syncEventsForConsumer count) .idle st.world choices
      ⟨r.1, r.2.1⟩

/-- An empty Redis. -/
def start (clock : ℚ) : State :=
  ⟨⟨⟨clock, [], none, fun _ => none, fun _ => none, fun _ => none⟩, []⟩, .idle⟩

/-! ## The law -/

/-- The end of the stretch that the last call has consumed with no entry failed, its offset saved or
not. -/
def Phase.consumed : Phase → Option ℕ
  | next x [] false => some x
  | saved x false => some x
  | _ => none

/-- The events before a position that no later one before it replaces. -/
def Remains (stream : List Entry) (x i : ℕ) (e : Entry) : Prop :=
  i < x ∧ ∀ j, i < j → j < x → ∀ e' ∈ stream[j]?, ¬ Replaces e' e

/-- A young event that the offset is at or past is stored, unless a later one replaced it; and when
a stretch has been consumed, the young events that are stored are those of the stream up to there
that none replaces. -/
structure Kept (st : State) : Prop where
  kept : ∀ i < st.world.redis.offset.getD 0, ∀ e ∈ st.world.redis.stream[i]?,
    e.Young st.world.redis.clock → st.world.redis.Stored e ∨
      ∃ j ∈ st.world.stored, i < j ∧ ∃ e' ∈ st.world.redis.stream[j]?, Replaces e' e
  exact : ∀ x ∈ st.phase.consumed, ∀ i, ∀ e ∈ st.world.redis.stream[i]?,
    e.Young st.world.redis.clock →
      (st.world.redis.Stored e ↔ Remains st.world.redis.stream x i e)

/-- The same messages are stored in a later state, of those that are still young. -/
def SameMessages (st st' : State) : Prop :=
  ∀ e ∈ st'.world.redis.stream, e.Young st'.world.redis.clock →
    (st.world.redis.Stored e ↔ st'.world.redis.Stored e)

instance (st st' : State) : Decidable (SameMessages st st') :=
  inferInstanceAs (Decidable (∀ e ∈ _, _))

/-! ## What is excluded -/

/-- Whether an entry of the batch was left over. -/
def Phase.failed : Phase → Bool
  | next _ _ failed => failed
  | _ => false

/-- An event taken up is young and has occurred, or is too old and replaces none that is young. -/
def TimesAgree (db : Redis) (now : ℚ) : Phase → Prop
  | .parsed x e _ _ =>
      if e.Young now then e.occurred ≤ now
      else ∀ i < x, ∀ e' ∈ db.stream[i]?, Replaces e e' → ¬ e'.Young now
  | _ => True

instance (db : Redis) (now : ℚ) : (k : Phase) → Decidable (TimesAgree db now k)
  | .parsed _ e _ _ => inferInstanceAs (Decidable (if e.Young now then _ else _))
  | .idle => isTrue trivial
  | .located _ => isTrue trivial
  | .next .. => isTrue trivial
  | .aged .. => isTrue trivial
  | .marked .. => isTrue trivial
  | .saved .. => isTrue trivial

/-- Of the earlier events that are young, the marker names none but one that this event replaces. -/
def RemovesNoOther (db : Redis) (x : ℕ) (e : Entry) (prev : String) : Prop :=
  ∀ i < x, ∀ e' ∈ db.stream[i]?, e'.Young db.clock → e'.event.messageId = prev → Replaces e e'

instance (db : Redis) (x : ℕ) (e : Entry) (prev : String) :
    Decidable (RemovesNoOther db x e prev) := inferInstanceAs (Decidable (∀ i < _, _))

/-- The marker names every earlier event that is young and stored and that this event replaces. -/
def RemovesReplaced (db : Redis) (x : ℕ) (e : Entry) (prev : String) : Prop :=
  ∀ i < x, ∀ e' ∈ db.stream[i]?, e'.Young db.clock → Replaces e e' → db.Stored e' →
    e'.event.messageId = prev

instance (db : Redis) (x : ℕ) (e : Entry) (prev : String) :
    Decidable (RemovesReplaced db x e prev) := inferInstanceAs (Decidable (∀ i < _, _))

/-- The marker that was read agrees with the times of the events. -/
def MarkerAgrees (db : Redis) : Phase → Prop
  | .marked x e _ _ _ prev => RemovesNoOther db x e prev ∧ RemovesReplaced db x e prev
  | _ => True

instance (db : Redis) : (k : Phase) → Decidable (MarkerAgrees db k)
  | .marked .. => inferInstanceAs (Decidable (_ ∧ _))
  | .idle => isTrue trivial
  | .located _ => isTrue trivial
  | .next .. => isTrue trivial
  | .parsed .. => isTrue trivial
  | .aged .. => isTrue trivial
  | .saved .. => isTrue trivial

/-- The calls that keep every message.  Excluded are: a failed read of an offset that was saved; a
read of a shorter stretch than has been stored; an event from the future, or one too old that
replaces a young one; a transaction whose marker does not agree with the times of the events; and
the saving of the offset after an entry that was not stored because a call failed. -/
def Spares (s : World) (k : Phase) (w : Choice) : Call → Prop
  | .getOffset => w.delivery ≠ .answered → s.redis.offset = none
  | .xread lastId count => w.delivery = .answered → ∀ i ∈ s.stored, i < lastId + count
  | .time => TimesAgree s.redis (s.redis.clock + w.elapsed) k
  | .exec _ => w.delivery ≠ .notExecuted → MarkerAgrees (s.pass w.elapsed).redis k
  | .setOffset _ => w.delivery ≠ .notExecuted → k.failed = false
  | .getMarker _ => True

instance (s : World) (k : Phase) (w : Choice) : (c : Call) → Decidable (Spares s k w c)
  | .getOffset => inferInstanceAs (Decidable (_ → _ = none))
  | .xread .. => inferInstanceAs (Decidable (_ → _))
  | .time => inferInstanceAs (Decidable (TimesAgree ..))
  | .exec _ => inferInstanceAs (Decidable (_ → _))
  | .setOffset _ => inferInstanceAs (Decidable (_ → _))
  | .getMarker _ => isTrue trivial

/-- A published event has its own message id, and the calls of a `sync_events_for_consumer` keep
every message. -/
def Move.Meets (st : State) : Move → Prop
  | .publish e => ∀ e' ∈ st.world.redis.stream, e'.event.messageId ≠ e.event.messageId
  | .pass .. => True
  | .sync count choices =>
      Calls.Meets serve Spares (syncEventsForConsumer count) .idle st.world choices

instance (st : State) : (m : Move) → Decidable (m.Meets st)
  | .publish _ => inferInstanceAs (Decidable (∀ e' ∈ _, _))
  | .pass .. => isTrue trivial
  | .sync .. => inferInstanceAs (Decidable (Calls.Meets ..))

/-! ## The programs -/

theorem numbered_eq_nil_iff {lastId : ℕ} {todo : List Entry} :
    numbered lastId todo = [] ↔ todo = [] := by
  cases todo <;> simp [numbered]

theorem getLast?_numbered {lastId : ℕ} {todo : List Entry} (h : todo ≠ []) :
    ((numbered lastId todo).getLast?.map Prod.fst).getD lastId = lastId + todo.length := by
  induction todo generalizing lastId with
  | nil => exact absurd rfl h
  | cons e todo ih =>
    rw [numbered]
    cases todo with
    | nil => rfl
    | cons e' todo =>
      have hne : numbered (lastId + 1) (e' :: todo) ≠ [] := by simp [numbered]
      have hlast := List.getLast?_eq_some_getLast hne
      have hrest : ((numbered (lastId + 1) (e' :: todo)).getLast?.map Prod.fst).getD (lastId + 1) =
          lastId + 1 + (e' :: todo).length := ih (by simp)
      rw [hlast, Option.map_some, Option.getD_some] at hrest
      rw [List.getLast?_cons, hlast, Option.getD_some, Option.map_some, Option.getD_some, hrest]
      simp only [List.length_cons]
      omega

/-- What a reply says: the clock is always read, and a read of the stream gives its entries. -/
def Says (db : Redis) : (c : Call) → Option (Reply c) → Prop
  | .time, r => r.isSome
  | .xread lastId count, some entries =>
      entries = numbered lastId ((db.stream.drop lastId).take count)
  | _, _ => True

/-- The commands of the transaction in a phase. -/
def Phase.commands : Phase → Option (List Command)
  | aged _ e _ _ now => if e.event.dedupeKey = "" then some (storeCommands e.event (e.age now))
      else none
  | marked _ e _ _ now prev =>
      some (dedupeCommands e.event (e.age now) prev ++ storeCommands e.event (e.age now))
  | _ => none

/-- The calls that a sync makes in each phase, and the replies they can get. -/
def protocol : Protocol Call Reply Phase where
  allowed k
    | .time => (∃ x e todo failed, k = .next x (e :: todo) failed) ∨
        ∃ x e todo failed, k = .parsed x e todo failed
    | .getOffset => k = .idle
    | .setOffset lastId => ∃ failed, k = .next lastId [] failed
    | .xread lastId _ => k = .located lastId
    | .getMarker key => ∃ x e todo failed now, k = .aged x e todo failed now ∧
        key = e.event.dedupeKey
    | .exec commands => k.commands = some commands
  reply k c k' r := ∃ db w, k' = k.after db w c r ∧ Says db c r

/-- The entry is done with. -/
def Past (x : ℕ) (todo : List Entry) (k : Phase) : Prop := ∃ failed, k = .next x todo failed

theorem ageSec_occurredAt (e : Entry) (now : ℚ) :
    ageSec now e.event.occurredAt = some (e.age now) := by
  rw [e.finite]
  rfl

theorem follows_storeEvent {x : ℕ} {e : Entry} {todo : List Entry} {failed : Bool} {now : ℚ} :
    Follows protocol (fun k _ => Past (x + 1) todo k) (.aged x e todo failed now)
      (storeEvent e.event (e.age now)) := by
  unfold storeEvent
  split_ifs with hkey
  · refine ⟨if_pos hkey, fun k r hr => ?_⟩
    obtain ⟨db, w, rfl, -⟩ := hr
    exact ⟨_, rfl⟩
  · refine ⟨⟨x, e, todo, failed, now, rfl, rfl⟩, fun k r hr => ?_⟩
    obtain ⟨db, w, rfl, -⟩ := hr
    cases r with
    | none => exact ⟨_, rfl⟩
    | some marker =>
      refine ⟨rfl, fun k r hr => ?_⟩
      obtain ⟨db, w, rfl, -⟩ := hr
      exact ⟨_, rfl⟩

theorem follows_materialize {x : ℕ} {e : Entry} {todo : List Entry} {failed : Bool} :
    Follows protocol (fun k _ => Past (x + 1) todo k) (.parsed x e todo failed)
      (materializeStreamEvent e.event) := by
  refine ⟨.inr ⟨x, e, todo, failed, rfl⟩, fun k r hr => ?_⟩
  obtain ⟨db, w, rfl, hnow⟩ := hr
  obtain ⟨now, rfl⟩ := Option.isSome_iff_exists.1 hnow
  show Follows _ _ _ (storeAged e.event (ageSec now e.event.occurredAt))
  rw [ageSec_occurredAt, storeAged]
  simp only [Phase.after, Option.getD_some]
  split_ifs with hage
  · exact ⟨failed, rfl⟩
  · exact follows_storeEvent

theorem follows_materializeAll (x : ℕ) (todo : List Entry) (failed : Bool) :
    Follows protocol (fun k _ => Past (x + todo.length) [] k) (.next x todo failed)
      (materializeAll (numbered x todo)) := by
  induction todo generalizing x failed with
  | nil => exact ⟨failed, rfl⟩
  | cons e todo ih =>
    have hfields : ∀ now, materializeFields now e.fields = materializeStreamEvent e.event := by
      intro now
      rw [materializeFields, e.parses]
    rw [numbered, materializeAll]
    simp only [hfields]
    refine ⟨.inl ⟨x, e, todo, failed, rfl⟩, fun k r hr => ?_⟩
    obtain ⟨db, w, rfl, -⟩ := hr
    refine follows_materialize.bind fun k message hpast => ?_
    obtain ⟨failed', rfl⟩ := hpast
    have hrest := ih (x + 1) failed'
    refine hrest.bind fun k emitted hpast => ?_
    obtain ⟨failed'', rfl⟩ := hpast
    refine ⟨failed'', ?_⟩
    rw [List.length_cons, Nat.add_assoc, Nat.add_comm 1]

theorem follows_consume {lastId : ℕ} {todo : List Entry} :
    Follows protocol (fun _ _ => True) (.next lastId todo false)
      (consume lastId (numbered lastId todo)) := by
  unfold consume
  split_ifs with hnone
  · trivial
  · have htodo : todo ≠ [] := fun h => hnone (numbered_eq_nil_iff.2 h)
    have hlength := List.length_pos_iff.2 htodo
    refine (follows_materializeAll lastId todo false).bind fun k emitted hpast => ?_
    obtain ⟨failed, rfl⟩ := hpast
    rw [getLast?_numbered htodo, saveNewest, if_pos (by omega)]
    exact ⟨⟨failed, rfl⟩, fun _ _ _ => trivial⟩

theorem follows_sync (count : ℕ) :
    Follows protocol (fun _ _ => True) .idle (syncEventsForConsumer count) := by
  refine ⟨rfl, fun k r hr => ?_⟩
  obtain ⟨db, w, rfl, -⟩ := hr
  refine ⟨rfl, fun k r' hr' => ?_⟩
  obtain ⟨db', w', rfl, hsays⟩ := hr'
  cases r' with
  | none => trivial
  | some entries =>
    obtain rfl := hsays
    exact follows_consume

end Core.MessageCenter
