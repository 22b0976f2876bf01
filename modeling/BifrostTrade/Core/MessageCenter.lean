import BifrostTrade.Lib.Binary64
import BifrostTrade.Lib.Calls
import BifrostTrade.Lib.RedisHash

/-!
# The message center's consumer

The reading side of `core/message_center.py`: events of a Redis stream are parsed and stored as
messages with a time to live, an event of a dedupe key replaces the message of the one before it,
and the offset of the consumer is saved after each stretch.  `sync_events_for_consumer` is a program
of Redis calls, each of which may fail before or after it took effect.  The client decodes what
Redis returns.
-/

namespace Core.MessageCenter

open Py Calls RedisHash

/-! ## Events -/

/-- `MESSAGE_CENTER_TTL_SEC`. -/
def messageCenterTtlSec : ℕ := 3600

/-- `MESSAGE_CENTER_DEDUPE_WINDOW_SEC`. -/
def messageCenterDedupeWindowSec : ℕ := 30

/-- `SystemMessageEvent`. -/
structure SystemMessageEvent where
  messageId : String
  topic : String
  level : String
  service : String
  slot : String
  clientId : Option ℤ
  account : Option String
  statusFrom : String
  statusTo : String
  title : String
  message : String
  reason : Option String
  occurredAt : Double
  dedupeKey : String
  deriving DecidableEq

/-- `_sanitize_slot`. -/
def sanitizeSlot (slot : Option String) : String :=
  let raw := textOrEmpty slot
  let s := lower (strip (if raw = "" then "host" else raw))
  if s = "" then "host" else s

/-- `_coerce_int`. -/
def coerceInt (raw : Option String) : Option ℤ :=
  if strip (textOrEmpty raw) = "" then none else raw.bind parseInt

/-- `_coerce_float`. -/
def coerceFloat (raw : Option String) (default : Double) : Double :=
  if strip (textOrEmpty raw) = "" then default else (raw.bind readFloat).getD default

/-- `_decode_value(fields.get(key)).strip()`. -/
def textField (fields : Hash) (key : String) : String := strip (textOrEmpty (fields.lookup key))

/-- `text or default`. -/
def orDefault (text default : String) : String := if text = "" then default else text

/-- `text or None`. -/
def orNone (text : String) : Option String := if text = "" then none else some text

/-- `parse_system_message_event`; `now` is the clock, read for an event without its time. -/
def parseSystemMessageEvent (now : ℚ) (fields : Hash) : Option SystemMessageEvent :=
  if textField fields "topic" = "" then none
  else if textField fields "message_id" = "" then none
  else some
    { messageId := textField fields "message_id"
      topic := textField fields "topic"
      level := orDefault (textField fields "level") "info"
      service := textField fields "service"
      slot := sanitizeSlot (fields.lookup "slot")
      clientId := coerceInt (fields.lookup "client_id")
      account := orNone (textField fields "account")
      statusFrom := orDefault (textField fields "status_from") "unknown"
      statusTo := orDefault (textField fields "status_to") "unknown"
      title := textField fields "title"
      message := textField fields "message"
      reason := orNone (textField fields "reason")
      occurredAt := coerceFloat (fields.lookup "occurred_at") (.fin now)
      dedupeKey := textField fields "dedupe_key" }

/-- A parsable event of the stream, with its own time. -/
structure Entry where
  fields : Hash
  event : SystemMessageEvent
  occurred : ℚ
  parses : ∀ now, parseSystemMessageEvent now fields = some event
  finite : event.occurredAt = .fin occurred

/-- A stored message, as the JSON text of an item says it. -/
structure Message where
  messageId : String
  topic : String
  level : String
  service : String
  slot : String
  clientId : Option ℤ
  account : Option String
  statusFrom : String
  statusTo : String
  title : String
  message : String
  reason : Option String
  occurredAt : Double
  deriving DecidableEq

/-- The `body` of an event. -/
def SystemMessageEvent.body (event : SystemMessageEvent) : Message where
  messageId := event.messageId
  topic := event.topic
  level := event.level
  service := event.service
  slot := event.slot
  clientId := event.clientId
  account := event.account
  statusFrom := event.statusFrom
  statusTo := event.statusTo
  title := event.title
  message := event.message
  reason := event.reason
  occurredAt := event.occurredAt

/-! ## Redis -/

/-- The commands of a transaction; `ex` is a time to live in seconds. -/
inductive Command where
  | zrem (messageId : String)
  | deleteItem (messageId : String)
  | setMarker (dedupeKey messageId : String) (ex : ℕ)
  | setItem (messageId : String) (body : Message) (ex : ℕ)
  | zadd (messageId : String) (score : Double)

/-- What the consumer asks of Redis. -/
inductive Call where
  | time
  | getOffset
  | setOffset (lastId : ℕ)
  | xread (lastId count : ℕ)
  | getMarker (dedupeKey : String)
  | exec (commands : List Command)

/-- The type of the reply to a call. -/
@[reducible] def Reply : Call → Type
  | .time => ℚ
  | .getOffset => Option ℕ
  | .setOffset _ => Unit
  | .xread .. => List (ℕ × Hash)
  | .getMarker _ => Option String
  | .exec _ => Unit

/-- The stream, whose entries have the ids `1`, `2` and so on; the offset of the consumer; the
index, the items and the dedupe markers, the latter two with the time when they expire. -/
structure Redis where
  clock : ℚ
  stream : List Entry
  offset : Option ℕ
  index : String → Option Double
  items : String → Option (Message × ℚ)
  markers : String → Option (String × ℚ)

/-- The effect of a command of a pipeline. -/
def Redis.run (db : Redis) : Command → Redis
  | .zrem messageId => { db with index := Function.update db.index messageId none }
  | .deleteItem messageId => { db with items := Function.update db.items messageId none }
  | .setMarker key messageId ex =>
      { db with markers := Function.update db.markers key (some (messageId, db.clock + ex)) }
  | .setItem messageId body ex =>
      { db with items := Function.update db.items messageId (some (body, db.clock + ex)) }
  | .zadd messageId score => { db with index := Function.update db.index messageId (some score) }

/-- The marker of a dedupe key that has not expired. -/
def Redis.marker (db : Redis) (key : String) : Option String :=
  ((db.markers key).filter fun m => db.clock < m.2).map Prod.fst

/-- Entries with their ids, the first of them after `lastId`. -/
def numbered : ℕ → List Entry → List (ℕ × Hash)
  | _, [] => []
  | lastId, e :: entries => (lastId + 1, e.fields) :: numbered (lastId + 1) entries

/-- The effect of a call and its reply. -/
def Redis.execute (db : Redis) : (c : Call) → Redis × Option (Reply c)
  | .time => (db, some db.clock)
  | .getOffset => (db, some db.offset)
  | .setOffset lastId => ({ db with offset := some lastId }, some ())
  | .xread lastId count => (db, some (numbered lastId ((db.stream.drop lastId).take count)))
  | .getMarker key => (db, some (db.marker key))
  | .exec commands => (commands.foldl Redis.run db, some ())

/-- What happens to one call, and the time that passes before it. -/
structure Choice where
  delivery : Delivery
  elapsed : ℚ
  nonneg : 0 ≤ elapsed

/-- A call under a choice.  The clock is read without Redis. -/
def Redis.answer (w : Choice) (db : Redis) (c : Call) : Redis × Option (Reply c) :=
  let db := { db with clock := db.clock + w.elapsed }
  match c with
  | .time => db.execute .time
  | c => w.delivery.outcome db (db.execute c)

/-! ## The consumer -/

/-- A program over Redis. -/
abbrev Prog := Program Call Reply

/-- One call. -/
abbrev ask (c : Call) : Prog (Option (Reply c)) := Program.ask c

/-- `consumer_last_id`; zero is the id `0-0`. -/
def consumerLastId : Prog ℕ := do
  let raw ← ask .getOffset
  pure ((raw.getD none).getD 0)

/-- `set_consumer_last_id`. -/
def setConsumerLastId (lastId : ℕ) : Prog Unit := discard (ask (.setOffset lastId))

/-- `read_stream_events`; a failed read is no entries. -/
def readStreamEvents (lastId count : ℕ) : Prog (List (ℕ × Hash)) := do
  let reply ← ask (.xread lastId count)
  pure (reply.getD [])

/-- `age_sec`; `none` where it is infinite. -/
def ageSec (now : ℚ) : Double → Option ℚ
  | .fin occurred => some (max 0 (now - occurred))
  | .negInf => none
  | .posInf => some 0
  | .nan => some 0

/-- `ttl_remaining`. -/
def ttlRemaining (age : ℚ) : ℕ := max 1 ⌈(messageCenterTtlSec : ℚ) - age⌉.toNat

/-- The commands about the message that the marker names, and the marker itself. -/
def dedupeCommands (event : SystemMessageEvent) (age : ℚ) (prevMessageId : String) :
    List Command :=
  (if prevMessageId ≠ "" ∧ prevMessageId ≠ event.messageId then
    [.zrem prevMessageId, .deleteItem prevMessageId] else []) ++
  [.setMarker event.dedupeKey event.messageId
    (max 1 (min messageCenterDedupeWindowSec (ttlRemaining age)))]

/-- The commands that store an event. -/
def storeCommands (event : SystemMessageEvent) (age : ℚ) : List Command :=
  [.setItem event.messageId event.body (ttlRemaining age), .zadd event.messageId event.occurredAt]

/-- The transaction, and the body where it raises nothing. -/
def execute (event : SystemMessageEvent) (commands : List Command) : Prog (Option Message) := do
  let done ← ask (.exec commands)
  pure (done.map fun _ => event.body)

/-- The transaction with the marker that was read; nothing where the read raised. -/
def storeMarked (event : SystemMessageEvent) (age : ℚ) :
    Option (Option String) → Prog (Option Message)
  | none => pure none
  | some marker =>
      execute event (dedupeCommands event age (strip (textOrEmpty marker)) ++
        storeCommands event age)

/-- The transaction of an event that is young enough. -/
def storeEvent (event : SystemMessageEvent) (age : ℚ) : Prog (Option Message) :=
  if event.dedupeKey = "" then execute event (storeCommands event age)
  else do
    let raw ← ask (.getMarker event.dedupeKey)
    storeMarked event age raw

/-- The event with its age, dropped where the age reaches the time to live. -/
def storeAged (event : SystemMessageEvent) : Option ℚ → Prog (Option Message)
  | none => pure none
  | some age => if (messageCenterTtlSec : ℚ) ≤ age then pure none else storeEvent event age

/-- `materialize_stream_event`. -/
def materializeStreamEvent (event : SystemMessageEvent) : Prog (Option Message) := do
  let now ← ask .time
  storeAged event (ageSec (now.getD 0) event.occurredAt)

/-- One entry of the loop; one that does not parse is skipped. -/
def materializeFields (now : ℚ) (fields : Hash) : Prog (Option Message) :=
  match parseSystemMessageEvent now fields with
  | none => pure none
  | some event => materializeStreamEvent event

/-- The loop of `sync_events_for_consumer` over the entries. -/
def materializeAll : List (ℕ × Hash) → Prog (List Message)
  | [] => pure []
  | entry :: entries => do
      let now ← ask .time
      let message ← materializeFields (now.getD 0) entry.2
      let emitted ← materializeAll entries
      pure (message.toList ++ emitted)

/-- The end of `sync_events_for_consumer`. -/
def saveNewest (lastId newestId : ℕ) : Prog Unit :=
  if newestId ≠ lastId then setConsumerLastId newestId else pure ()

/-- What `sync_events_for_consumer` does with the entries it read. -/
def consume (lastId : ℕ) (entries : List (ℕ × Hash)) : Prog (List Message) :=
  if entries = [] then pure []
  else do
    let emitted ← materializeAll entries
    saveNewest lastId ((entries.getLast?.map Prod.fst).getD lastId)
    pure emitted

/-- `sync_events_for_consumer`. -/
def syncEventsForConsumer (count : ℕ) : Prog (List Message) := do
  let lastId ← consumerLastId
  let entries ← readStreamEvents lastId count
  consume lastId entries

/-! ## Entries -/

theorem Entry.messageId_ne_empty (e : Entry) : e.event.messageId ≠ "" := by
  have h := e.parses 0
  unfold parseSystemMessageEvent at h
  split_ifs at h with _ hid
  rw [← Option.some.inj h]
  exact hid

end Core.MessageCenter
