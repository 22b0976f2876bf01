import BifrostTrade.Core.MessageCenter
import BifrostTrade.Lib.Uuid

/-!
# Events of the message center

How `core/message_center.py` builds the events that it publishes, writes them into the fields of a
stream entry, and reads them back of a reply, whose keys and values a client gives as texts or as
bytes.  A client that decodes is the one of the consumer (`parseSystemMessageReply_text`).
-/

namespace Core.MessageCenter

open Py RedisHash

/-! ## Labels -/

/-- `MESSAGE_CENTER_TOPIC_IB_CONNECTION`. -/
def messageCenterTopicIbConnection : String := "ib.connection"

/-- `MESSAGE_CENTER_TOPIC_PORTFOLIO_TWS_EXECUTIONS`. -/
def messageCenterTopicPortfolioTwsExecutions : String := "portfolio.tws_executions"

/-- `IB_CONNECTION_LEVELS`. -/
def ibConnectionLevels : List (String × String) :=
  [("connected", "success"), ("reconnecting", "warning"), ("disconnected", "error")]

/-- `IB_CONNECTION_LABELS`. -/
def ibConnectionLabels : List (String × String) :=
  [("connected", "Connected"), ("reconnecting", "Reconnecting"), ("disconnected", "Disconnected"),
    ("unknown", "Unknown")]

/-- `IB_SERVICE_LABELS`. -/
def ibServiceLabels : List (String × String) :=
  [("ib_operator", "IB Operator"), ("ib_ingestor", "IB Ingestor"),
    ("ib_account_agent", "IB Account Agent"), ("portfolio_flex", "Portfolio (Flex)")]

/-- `IB_SLOT_DISPLAY_LABELS`. -/
def ibSlotDisplayLabels : List (String × String) := [("host", "HOST"), ("secondary", "SECONDARY")]

/-- `s.replace("_", " ")`. -/
def spaced (s : String) : String := String.ofList (s.toList.map fun c => if c = '_' then ' ' else c)

/-- `labels.get(s, s.replace("_", " ").title())`. -/
def labelOf (labels : List (String × String)) (s : String) : String :=
  (labels.lookup s).getD (title (spaced s))

/-- `_service_label`. -/
def serviceLabel (service : String) : String := labelOf ibServiceLabels service

/-- `_status_label`. -/
def statusLabel (status : String) : String := labelOf ibConnectionLabels status

/-- `slot_display_label`. -/
def slotDisplayLabel (slot : String) : String :=
  let key := sanitizeSlot (some slot)
  (ibSlotDisplayLabels.lookup key).getD (upper key)

/-! ## Builders -/

/-- `float(occurred_at or time.time())`. -/
def occurredOr (now : ℚ) : Option Double → Double
  | some x => if x = .fin 0 then .fin now else x
  | none => .fin now

/-- A text with something around it, nothing where it is missing or empty. -/
def optionalPart (before after : String) : Option String → String
  | some s => if s = "" then "" else before ++ s ++ after
  | none => ""

/-- The arguments of `build_ib_connection_event`. -/
structure IbConnectionArgs where
  service : String
  slot : String
  clientId : Option ℤ
  account : Option String
  statusFrom : String
  statusTo : String
  reason : Option String
  occurredAt : Option Double

namespace IbConnectionArgs

variable (a : IbConnectionArgs)

/-- The slot, as `_sanitize_slot` leaves it. -/
def slotName : String := sanitizeSlot (some a.slot)

/-- The part of the title after the service. -/
def titleRest : String :=
  if a.statusTo = "disconnected" then " — " ++ slotDisplayLabel a.slotName ++ " disconnected"
  else if a.statusTo = "connected" then " — " ++ slotDisplayLabel a.slotName ++ " connected"
  else " — " ++ slotDisplayLabel a.slotName ++ " connection changed"

/-- The part of the message between the service and the new status. -/
def messageMiddle : String :=
  " " ++ slotDisplayLabel a.slotName ++ optionalPart ", client " "" (a.clientId.map toString) ++
    optionalPart ", account=" "" a.account ++ ": " ++ statusLabel a.statusFrom ++ " → "

/-- The message text. -/
def message : String :=
  serviceLabel a.service ++ (a.messageMiddle ++ (statusLabel a.statusTo ++
    optionalPart " (" ")" a.reason))

/-- The key under which an announcement counts as a repetition. -/
def dedupeKey : String :=
  messageCenterTopicIbConnection ++ ":" ++ a.service ++ ":" ++ a.slotName ++ ":" ++
    toString (a.clientId.getD 0) ++ ":" ++ a.statusTo

end IbConnectionArgs

/-- The event of a connection. -/
def ibConnectionEvent (uuid : UuidHex) (now : ℚ) (a : IbConnectionArgs) : SystemMessageEvent where
  messageId := uuid.hex
  topic := messageCenterTopicIbConnection
  level := (ibConnectionLevels.lookup a.statusTo).getD "info"
  service := a.service
  slot := a.slotName
  clientId := a.clientId
  account := a.account
  statusFrom := a.statusFrom
  statusTo := a.statusTo
  title := serviceLabel a.service ++ a.titleRest
  message := a.message
  reason := a.reason
  occurredAt := occurredOr now a.occurredAt
  dedupeKey := a.dedupeKey

/-- `build_ib_connection_event`; `none` where a client id is too long to print. -/
def buildIbConnectionEvent (uuid : UuidHex) (now : ℚ) (a : IbConnectionArgs) :
    Option SystemMessageEvent :=
  if ∀ n ∈ a.clientId, Printable n then some (ibConnectionEvent uuid now a) else none

/-- The arguments of the event of a fetch of executions. -/
structure ExecutionsFetchArgs where
  ok : Bool
  title : String
  message : String
  reason : Option String
  level : Option String
  occurredAt : Option Double

/-- The level of the event: the one that is given, unless it is empty. -/
def ExecutionsFetchArgs.levelOr (a : ExecutionsFetchArgs) : String :=
  orDefault (a.level.getD "") (if a.ok then "success" else "error")

/-- `build_portfolio_tws_executions_fetch_event`. -/
def buildPortfolioTwsExecutionsFetchEvent (uuid dedupe : UuidHex) (now : ℚ)
    (a : ExecutionsFetchArgs) : SystemMessageEvent where
  messageId := uuid.hex
  topic := messageCenterTopicPortfolioTwsExecutions
  level := a.levelOr
  service := "ib_operator"
  slot := "host"
  clientId := none
  account := none
  statusFrom := "unknown"
  statusTo := if a.ok then "complete" else "failed"
  title := a.title
  message := a.message
  reason := a.reason
  occurredAt := occurredOr now a.occurredAt
  dedupeKey := messageCenterTopicPortfolioTwsExecutions ++ ":" ++ dedupe.hex

/-! ## Fields -/

/-- The fields of an event. -/
def SystemMessageEvent.fields (event : SystemMessageEvent) : Hash :=
  [("message_id", event.messageId), ("topic", event.topic), ("level", event.level),
    ("service", event.service), ("slot", event.slot),
    ("client_id", (event.clientId.map toString).getD ""), ("account", event.account.getD ""),
    ("status_from", event.statusFrom), ("status_to", event.statusTo), ("title", event.title),
    ("message", event.message), ("reason", event.reason.getD ""),
    ("occurred_at", reprFloat event.occurredAt), ("dedupe_key", event.dedupeKey)]

/-- `system_message_event_to_fields`; `none` where the client id is too long to print. -/
def systemMessageEventToFields (event : SystemMessageEvent) : Option Hash :=
  if ∀ n ∈ event.clientId, Printable n then some event.fields else none

/-! ## Replies -/

/-- The fields of an entry as a client returns them. -/
abbrev EntryFields := List (Blob × Blob)

/-- `fields.get(key) or fields.get(key as bytes)`. -/
def replyField (fields : EntryFields) (key : String) : Option Blob :=
  ((fields.lookup (.text key)).filter Blob.truthy).or
    (fields.lookup (.bytes (Octets.encodeText key)))

/-- `_decode_value`. -/
def decodeValue (raw : Option Blob) : String := (raw.map Blob.decode).getD ""

/-- A field of an entry as text, trimmed. -/
def replyText (fields : EntryFields) (key : String) : String :=
  strip (decodeValue (replyField fields key))

/-- `_sanitize_slot` of a value that may be bytes. -/
def sanitizeSlotValue (raw : Option Blob) : String :=
  sanitizeSlot ((raw.filter Blob.truthy).map Blob.str)

/-- `_coerce_int`. -/
def coerceIntValue (raw : Option Blob) : Option ℤ :=
  (raw.filter fun b => strip b.str ≠ "").bind Blob.toInt

/-- `_coerce_float`. -/
def coerceFloatValue (raw : Option Blob) (default : Double) : Double :=
  ((raw.filter fun b => strip b.str ≠ "").bind Blob.toFloat).getD default

/-- `parse_system_message_event`. -/
def parseSystemMessageReply (now : ℚ) (fields : EntryFields) : Option SystemMessageEvent :=
  if replyText fields "topic" = "" then none
  else if replyText fields "message_id" = "" then none
  else some
    { messageId := replyText fields "message_id"
      topic := replyText fields "topic"
      level := orDefault (replyText fields "level") "info"
      service := replyText fields "service"
      slot := sanitizeSlotValue (replyField fields "slot")
      clientId := coerceIntValue (replyField fields "client_id")
      account := orNone (replyText fields "account")
      statusFrom := orDefault (replyText fields "status_from") "unknown"
      statusTo := orDefault (replyText fields "status_to") "unknown"
      title := replyText fields "title"
      message := replyText fields "message"
      reason := orNone (replyText fields "reason")
      occurredAt := coerceFloatValue (replyField fields "occurred_at") (.fin now)
      dedupeKey := replyText fields "dedupe_key" }

/-- Which keys and which values a client returns as bytes. -/
structure Form where
  keyBytes : String → Bool
  valueBytes : String → Bool

/-- A text as itself or as its bytes. -/
def blob (asBytes : Bool) (s : String) : Blob :=
  if asBytes then .bytes (Octets.encodeText s) else .text s

/-- The fields that were stored, as they are returned. -/
def returned (form : Form) (stored : Hash) : EntryFields :=
  stored.map fun f => (blob (form.keyBytes f.1) f.1, blob (form.valueBytes f.1) f.2)

theorem blob_inj {b b' : Bool} {s s' : String} : blob b s = blob b' s' ↔ b = b' ∧ s = s' := by
  cases b <;> cases b' <;> simp [blob, Octets.encodeText_inj]

theorem truthy_blob (b : Bool) (s : String) : (blob b s).truthy = decide (s ≠ "") := by
  cases b <;> simp [blob, Blob.truthy, Octets.encodeText_eq_nil_iff]

@[simp] theorem decode_blob (b : Bool) (s : String) : (blob b s).decode = s := by
  cases b
  · rfl
  · exact Octets.decodeReplace_encodeText s

theorem lookup_returned (form : Form) (stored : Hash) (asBytes : Bool) (key : String) :
    (returned form stored).lookup (blob asBytes key) =
      if form.keyBytes key = asBytes then (stored.lookup key).map (blob (form.valueBytes key))
      else none := by
  induction stored with
  | nil => simp [returned]
  | cons f stored ih =>
    have hcons : returned form (f :: stored) =
        (blob (form.keyBytes f.1) f.1, blob (form.valueBytes f.1) f.2) :: returned form stored :=
      rfl
    rw [hcons, List.lookup_cons, List.lookup_cons, ih]
    by_cases hkey : key = f.1
    · subst hkey
      by_cases hform : form.keyBytes f.1 = asBytes
      · simp [hform]
      · have hne : (blob asBytes f.1 == blob (form.keyBytes f.1) f.1) = false := by
          rw [beq_eq_false_iff_ne, Ne, blob_inj]
          exact fun h => hform h.1.symm
        simp [hform, hne]
    · have hne : (blob asBytes key == blob (form.keyBytes f.1) f.1) = false := by
        rw [beq_eq_false_iff_ne, Ne, blob_inj]
        exact fun h => hkey h.2
      have hkeyne : (key == f.1) = false := beq_false_of_ne hkey
      rw [hne, hkeyne]

/-- A field of a reply, as it was stored: an empty text under a text key counts as missing. -/
theorem replyField_returned (form : Form) (stored : Hash) (key : String) :
    replyField (returned form stored) key =
      ((stored.lookup key).filter fun v => form.keyBytes key ∨ v ≠ "").map
        (blob (form.valueBytes key)) := by
  have htext := lookup_returned form stored false key
  have hbytes := lookup_returned form stored true key
  rw [replyField]
  rw [show Blob.text key = blob false key from rfl,
    show Blob.bytes (Octets.encodeText key) = blob true key from rfl, htext, hbytes]
  cases stored.lookup key with
  | none => simp
  | some v =>
    cases form.keyBytes key with
    | true => simp
    | false =>
      by_cases hv : v = "" <;> simp [Option.filter, truthy_blob, hv]

theorem replyField_returned_of_ne {form : Form} {stored : Hash} {key v : String} (hv : v ≠ "")
    (hstored : stored.lookup key = some v) :
    replyField (returned form stored) key = some (blob (form.valueBytes key) v) := by
  rw [replyField_returned, hstored, Option.filter_some, if_pos (decide_eq_true (.inr hv)),
    Option.map_some]

theorem decodeValue_returned (form : Form) (stored : Hash) (key : String) :
    decodeValue (replyField (returned form stored) key) = (stored.lookup key).getD "" := by
  rw [replyField_returned, decodeValue]
  cases hv : stored.lookup key with
  | none => rfl
  | some v =>
    cases form.keyBytes key with
    | true => simp [Option.filter]
    | false => by_cases hempty : v = "" <;> simp [Option.filter, hempty]

theorem replyText_returned (form : Form) (stored : Hash) (key : String) :
    replyText (returned form stored) key = textField stored key := by
  rw [replyText, decodeValue_returned]
  rfl

/-! ## A client that decodes -/

/-- Keys and values as texts, or as bytes. -/
def textForm : Form := ⟨fun _ => false, fun _ => false⟩

/-- Replies whose names and values are all bytes. -/
def bytesForm : Form := ⟨fun _ => true, fun _ => true⟩

theorem replyField_text (stored : Hash) (key : String) :
    replyField (returned textForm stored) key =
      ((stored.lookup key).filter fun v => v ≠ "").map Blob.text := by
  rw [replyField_returned]
  simp [textForm, show blob false = Blob.text from rfl]

theorem sanitizeSlotValue_text (stored : Hash) (key : String) :
    sanitizeSlotValue (replyField (returned textForm stored) key) =
      sanitizeSlot (stored.lookup key) := by
  rw [replyField_text, sanitizeSlotValue]
  cases stored.lookup key with
  | none => rfl
  | some v =>
    by_cases hv : v = ""
    · simp [Option.filter, hv, sanitizeSlot, textOrEmpty]
    · simp [Option.filter, hv, Blob.truthy, Blob.str]

theorem coerceIntValue_text {stored : Hash} {key : String}
    (hdigits : ∀ s ∈ stored.lookup key,
      (takeDigits false (takeSign (strip s).toList).2).1.length ≤ Json.maxIntDigits) :
    coerceIntValue (replyField (returned textForm stored) key) =
      coerceInt (stored.lookup key) := by
  rw [replyField_text, coerceIntValue]
  cases hv : stored.lookup key with
  | none => rfl
  | some v =>
    have hread : (intOfText v).toOption = parseInt v := by
      rw [intOfText, if_neg (not_lt.2 (hdigits v hv))]
      cases parseInt v <;> rfl
    by_cases hblank : strip v = ""
    · by_cases hempty : v = "" <;>
        simp [Option.filter, hempty, hblank, Blob.str, coerceInt, textOrEmpty]
    · have hne : v ≠ "" := fun h => hblank (by rw [h, strip_empty])
      simp [Option.filter, hne, hblank, Blob.str, Blob.toInt, coerceInt, textOrEmpty, hread]

theorem coerceFloatValue_text (stored : Hash) (key : String) (default : Double) :
    coerceFloatValue (replyField (returned textForm stored) key) default =
      coerceFloat (stored.lookup key) default := by
  rw [replyField_text, coerceFloatValue]
  cases stored.lookup key with
  | none => rfl
  | some v =>
    by_cases hblank : strip v = ""
    · by_cases hempty : v = "" <;>
        simp [Option.filter, hempty, hblank, Blob.str, coerceFloat, textOrEmpty]
    · have hne : v ≠ "" := fun h => hblank (by rw [h, strip_empty])
      simp [Option.filter, hne, hblank, Blob.str, Blob.toFloat, coerceFloat, textOrEmpty]

/-- Of texts the reply is read as the consumer reads it, but for client ids of too many digits. -/
theorem parseSystemMessageReply_text (now : ℚ) {stored : Hash}
    (hdigits : ∀ s ∈ stored.lookup "client_id",
      (takeDigits false (takeSign (strip s).toList).2).1.length ≤ Json.maxIntDigits) :
    parseSystemMessageReply now (returned textForm stored) =
      parseSystemMessageEvent now stored := by
  rw [parseSystemMessageReply, parseSystemMessageEvent]
  simp only [replyText_returned, sanitizeSlotValue_text, coerceIntValue_text hdigits,
    coerceFloatValue_text]

end Core.MessageCenter
