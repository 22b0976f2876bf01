import BifrostTrade.Core.MessageEvents

/-!
# Which events survive the stream

An event of a builder that is written and read again is the same event exactly when its slot is
returned as a text and the texts it was built from are trimmed where they stand alone
(`survives_iff`): the slot is the one field that is read without decoding it.
-/

namespace Core.MessageCenter

open Py RedisHash

/-! ## Numbers that are read again -/

/-- A text that is neither blank nor has spaces around it. -/
structure Present (s : String) : Prop where
  strip_self : strip s = s
  ne_empty : s ≠ ""

theorem present_iff_and {s : String} : Present s ↔ strip s = s ∧ s ≠ "" :=
  ⟨fun h => ⟨h.strip_self, h.ne_empty⟩, fun h => ⟨h.1, h.2⟩⟩

instance (s : String) : Decidable (Present s) := decidable_of_iff _ present_iff_and.symm

/-- The text of the float is read as it. -/
def ReadsBack (x : Double) : Prop := readFloat (reprFloat x) = some x

theorem intOfText_toString {n : ℤ} (h : Printable n) : intOfText (toString n) = .ok n := by
  have hdigits := takeDigits_of_isDigit false (@isDigit_of_mem_toDigits n.natAbs)
  rw [intOfText, strip_of_forall (isSpace_toString n), takeSign_toString, hdigits, List.length_map,
    if_neg (not_lt.2 h), parseInt_toString]
  rfl

theorem ascii_toString (n : ℤ) : ∀ c ∈ (toString n).toList, c.toNat < 128 ∧ 31 < c.toNat := by
  intro c hc
  rw [toList_toString, List.mem_append] at hc
  rcases hc with hsign | hdigit
  · have hminus : c = '-' := by
      split at hsign
      · exact List.mem_singleton.1 hsign
      · exact absurd hsign List.not_mem_nil
    rw [hminus]
    decide
  · exact ascii_of_isNumeric (.inl (isDigit_of_mem_toDigits c hdigit))

theorem strip_str_blob_ne {s : String} (b : Bool) (h : strip s ≠ "") :
    strip (blob b s).str ≠ "" := by
  cases b with
  | false => exact h
  | true =>
    show strip (bytesRepr (Octets.encodeText s)) ≠ ""
    rw [strip_bytesRepr]
    intro hempty
    have hlength := length_bytesRepr (Octets.encodeText s)
    rw [hempty] at hlength
    exact absurd hlength (by simp)

/-- The bytes of a printed number are read as its text. -/
theorem toInt_blob {s : String} (b : Bool) (h : ∀ c ∈ s.toList, c.toNat < 128 ∧ 31 < c.toNat) :
    (blob b s).toInt = (intOfText s).toOption := by
  cases b with
  | false => rfl
  | true =>
    show (if plainBytes (Octets.encodeText s) then _ else _) = _
    rw [if_pos (plainBytes_encodeText h), Octets.decodeReplace_encodeText]

theorem toFloat_blob {s : String} (b : Bool) (h : ∀ c ∈ s.toList, c.toNat < 128 ∧ 31 < c.toNat) :
    (blob b s).toFloat = readFloat s := by
  cases b with
  | false => rfl
  | true =>
    show (if plainBytes (Octets.encodeText s) then _ else _) = _
    rw [if_pos (plainBytes_encodeText h), Octets.decodeReplace_encodeText]

variable {form : Form} {stored : Hash} {key : String}

theorem coerceIntValue_returned {n : Option ℤ} (hn : ∀ k ∈ n, Printable k)
    (hstored : stored.lookup key = some ((n.map toString).getD "")) :
    coerceIntValue (replyField (returned form stored) key) = n := by
  cases n with
  | none =>
    have hbytes : (blob true "").toInt = none := by decide +kernel
    have htext : strip (blob false "").str = "" := by decide
    rw [replyField_returned, hstored, coerceIntValue]
    cases hvalue : form.valueBytes key <;> cases form.keyBytes key <;>
      simp [Option.filter, htext, hbytes]
  | some k =>
    have hread := readFloat_toString k
    have hne := strip_str_blob_ne (form.valueBytes key) (strip_ne_empty_of_readFloat hread)
    rw [Option.map_some, Option.getD_some] at hstored
    rw [replyField_returned_of_ne (ne_empty_of_readFloat hread) hstored, coerceIntValue,
      Option.filter_some, if_pos (decide_eq_true hne), Option.bind_some,
      toInt_blob _ (ascii_toString k), intOfText_toString (hn k rfl)]
    rfl

theorem coerceFloatValue_returned {x : Double} (hx : ReadsBack x) (default : Double)
    (hstored : stored.lookup key = some (reprFloat x)) :
    coerceFloatValue (replyField (returned form stored) key) default = x := by
  have hread : readFloat (reprFloat x) = some x := hx
  have hne := strip_str_blob_ne (form.valueBytes key) (strip_ne_empty_of_readFloat hread)
  rw [replyField_returned_of_ne (ne_empty_of_readFloat hread) hstored, coerceFloatValue,
    Option.filter_some, if_pos (decide_eq_true hne), Option.bind_some,
    toFloat_blob _ (ascii_reprFloat x), hread, Option.getD_some]

/-! ## Slots -/

theorem sanitizeSlot_of_ne {s : String} (h : lower (strip s) ≠ "") :
    sanitizeSlot (some s) = lower (strip s) := by
  have hne : s ≠ "" := by
    rintro rfl
    exact h (by decide)
  simp [sanitizeSlot, textOrEmpty, hne, h]

theorem sanitizeSlot_ne_empty (slot : Option String) : sanitizeSlot slot ≠ "" := by
  unfold sanitizeSlot
  dsimp only
  split_ifs with h1 h2 h3
  · decide
  · exact h2
  · decide
  · exact h3

/-- A slot is read as it is. -/
theorem sanitizeSlot_sanitizeSlot (slot : Option String) :
    sanitizeSlot (some (sanitizeSlot slot)) = sanitizeSlot slot := by
  have hfixed : lower (strip (sanitizeSlot slot)) = sanitizeSlot slot := by
    have hhost : lower (strip "host") = "host" := by decide
    have hlower : ∀ s, lower (strip (lower (strip s))) = lower (strip s) := fun s => by
      rw [strip_lower, strip_strip, lower_lower]
    unfold sanitizeSlot
    dsimp only
    split_ifs
    · exact hhost
    · exact hlower "host"
    · exact hhost
    · exact hlower _
  have hne := sanitizeSlot_ne_empty slot
  rw [← hfixed] at hne
  rw [sanitizeSlot_of_ne hne, hfixed]

/-- The bytes of a slot are read as another. -/
theorem sanitizeSlot_bytes_ne (s : String) :
    sanitizeSlot (some (bytesRepr (Octets.encodeText s))) ≠ s := by
  have hne : lower (strip (bytesRepr (Octets.encodeText s))) ≠ "" := by
    rw [strip_bytesRepr]
    intro hempty
    have hlower := length_le_flatMap lowerChar_ne_nil (bytesRepr (Octets.encodeText s)).toList
    have hrepr := length_bytesRepr (Octets.encodeText s)
    have hlength := congrArg (List.length ∘ String.toList) hempty
    rw [Function.comp_apply, Function.comp_apply, lower, String.toList_ofList] at hlength
    rw [show ("" : String).toList.length = 0 from rfl] at hlength
    omega
  rw [sanitizeSlot_of_ne hne, strip_bytesRepr]
  exact lower_bytesRepr_ne s

theorem sanitizeSlotValue_returned {slot : String} (hslot : slot ≠ "")
    (hstored : stored.lookup key = some slot) :
    sanitizeSlotValue (replyField (returned form stored) key) =
      sanitizeSlot (some (blob (form.valueBytes key) slot).str) := by
  rw [replyField_returned_of_ne hslot hstored, sanitizeSlotValue, Option.filter_some, truthy_blob,
    if_pos (decide_eq_true hslot), Option.map_some]

/-! ## What is read -/

/-- An event as it is read again. -/
def SystemMessageEvent.read (event : SystemMessageEvent) (form : Form) : SystemMessageEvent where
  messageId := strip event.messageId
  topic := strip event.topic
  level := orDefault (strip event.level) "info"
  service := strip event.service
  slot := sanitizeSlot (some (blob (form.valueBytes "slot") event.slot).str)
  clientId := event.clientId
  account := orNone (strip (event.account.getD ""))
  statusFrom := orDefault (strip event.statusFrom) "unknown"
  statusTo := orDefault (strip event.statusTo) "unknown"
  title := strip event.title
  message := strip event.message
  reason := orNone (strip (event.reason.getD ""))
  occurredAt := event.occurredAt
  dedupeKey := strip event.dedupeKey

variable {event : SystemMessageEvent}

theorem replyText_fields (form : Form) {v : String} (h : event.fields.lookup key = some v) :
    replyText (returned form event.fields) key = strip v := by
  rw [replyText_returned, textField, h]
  rfl

theorem parse_returned (now : ℚ) (form : Form) (hid : strip event.messageId ≠ "")
    (htopic : strip event.topic ≠ "") (hslot : event.slot ≠ "")
    (hclient : ∀ n ∈ event.clientId, Printable n) (htime : ReadsBack event.occurredAt) :
    parseSystemMessageReply now (returned form event.fields) = some (event.read form) := by
  have htext : ∀ {key v}, event.fields.lookup key = some v →
      replyText (returned form event.fields) key = strip v := replyText_fields form
  rw [parseSystemMessageReply, @htext "topic" event.topic rfl,
    @htext "message_id" event.messageId rfl, if_neg htopic, if_neg hid,
    @htext "level" event.level rfl, @htext "service" event.service rfl,
    @htext "account" (event.account.getD "") rfl, @htext "status_from" event.statusFrom rfl,
    @htext "status_to" event.statusTo rfl, @htext "title" event.title rfl,
    @htext "message" event.message rfl, @htext "reason" (event.reason.getD "") rfl,
    @htext "dedupe_key" event.dedupeKey rfl, sanitizeSlotValue_returned hslot rfl,
    coerceIntValue_returned hclient rfl, coerceFloatValue_returned htime _ rfl]
  rfl

/-- The event comes back as it was. -/
def Survives (now : ℚ) (form : Form) (event : SystemMessageEvent) : Prop :=
  ∃ stored, systemMessageEventToFields event = some stored ∧
    parseSystemMessageReply now (returned form stored) = some event

theorem survives_iff_read (now : ℚ) (form : Form) (hid : strip event.messageId ≠ "")
    (htopic : strip event.topic ≠ "") (hslot : event.slot ≠ "")
    (hclient : ∀ n ∈ event.clientId, Printable n) (htime : ReadsBack event.occurredAt) :
    Survives now form event ↔ event.read form = event := by
  rw [Survives, systemMessageEventToFields, if_pos hclient]
  constructor
  · rintro ⟨stored, ⟨⟩, hparse⟩
    rw [parse_returned now form hid htopic hslot hclient htime] at hparse
    exact Option.some.inj hparse
  · intro hread
    refine ⟨_, rfl, ?_⟩
    rw [parse_returned now form hid htopic hslot hclient htime, hread]

/-! ## Texts that are read as they are -/

theorem orNone_strip_iff {o : Option String} :
    orNone (strip (o.getD "")) = o ↔ ∀ s ∈ o, Present s := by
  cases o with
  | none => simp [orNone]
  | some s =>
    rw [Option.getD_some, orNone]
    constructor
    · intro h t ht
      obtain rfl := Option.some.inj ht
      split_ifs at h with hempty
      exact ⟨Option.some.inj h, fun hs => hempty (by rw [hs, strip_empty])⟩
    · intro h
      obtain ⟨hstrip, hne⟩ := h s rfl
      rw [hstrip, if_neg hne]

theorem orDefault_strip_iff {s d : String} (hd : Present d) :
    orDefault (strip s) d = s ↔ Present s := by
  rw [orDefault]
  constructor
  · intro h
    split_ifs at h with hempty
    · rwa [← h]
    · exact ⟨h, fun hs => hempty (by rw [hs, strip_empty])⟩
  · rintro ⟨hstrip, hne⟩
    rw [hstrip, if_neg hne]

theorem slot_read_iff (b : Bool) (slot : Option String) :
    sanitizeSlot (some (blob b (sanitizeSlot slot)).str) = sanitizeSlot slot ↔ b = false := by
  cases b with
  | false => exact ⟨fun _ => rfl, fun _ => sanitizeSlot_sanitizeSlot slot⟩
  | true =>
    exact ⟨fun h => absurd h (sanitizeSlot_bytes_ne (sanitizeSlot slot)), fun h => by cases h⟩

theorem present_hex (uuid : UuidHex) : Present uuid.hex :=
  ⟨strip_of_forall fun _ => UuidHex.isSpace_of_mem, uuid.hex_ne_empty⟩

/-! ## Labels -/

/-- The ends of a text that is trimmed and not empty. -/
def StartsPlain (s : String) : Prop := s.toList.head?.map isSpace = some false

/-- The text ends with a character that is no space. -/
def EndsPlain (s : String) : Prop := s.toList.getLast?.map isSpace = some false

instance (s : String) : Decidable (StartsPlain s) := inferInstanceAs (Decidable (_ = _))
instance (s : String) : Decidable (EndsPlain s) := inferInstanceAs (Decidable (_ = _))

theorem forall_isSpace_iff {o : Option Char} :
    (∀ c ∈ o, isSpace c = false) ↔ o = none ∨ o.map isSpace = some false := by
  cases o <;> simp

theorem present_iff {s : String} : Present s ↔ StartsPlain s ∧ EndsPlain s := by
  rw [present_iff_and, strip_eq_self_iff, StartsPlain, EndsPlain, forall_isSpace_iff,
    forall_isSpace_iff,
    List.head?_eq_none_iff, List.getLast?_eq_none_iff, String.toList_eq_nil_iff]
  constructor
  · rintro ⟨⟨rfl | hhead, hrest⟩, hne⟩
    · exact absurd rfl hne
    · exact ⟨hhead, hrest.resolve_left hne⟩
  · rintro ⟨hhead, hlast⟩
    refine ⟨⟨.inr hhead, .inr hlast⟩, ?_⟩
    rintro rfl
    cases hhead

theorem startsPlain_append {a b : String} :
    StartsPlain (a ++ b) ↔ if a = "" then StartsPlain b else StartsPlain a := by
  split_ifs with ha
  · rw [ha, String.empty_append]
  · have hne : a.toList ≠ [] := by simpa using ha
    rw [StartsPlain, StartsPlain, String.toList_append, List.head?_append_of_ne_nil _ hne]

theorem endsPlain_append {a b : String} :
    EndsPlain (a ++ b) ↔ if b = "" then EndsPlain a else EndsPlain b := by
  split_ifs with hb
  · rw [hb, String.append_empty]
  · have hne : b.toList ≠ [] := by simpa using hb
    rw [EndsPlain, EndsPlain, String.toList_append, List.getLast?_append_of_ne_nil _ hne]

theorem not_startsPlain_empty : ¬ StartsPlain "" := by decide

theorem endsPlain_append_of_not {a b : String} (ha : ¬ EndsPlain a) :
    EndsPlain (a ++ b) ↔ EndsPlain b := by
  rw [endsPlain_append]
  split_ifs with hb
  · rw [hb]
    exact iff_of_false ha (by decide)
  · rfl

/-- A text before one that starts with a space. -/
theorem strip_append_iff {a b : String} (hb : b.toList.head?.map isSpace = some true) :
    strip (a ++ b) = a ++ b ↔ StartsPlain a ∧ EndsPlain b := by
  have hne : b ≠ "" := by
    rintro rfl
    cases hb
  have hstart : ¬ StartsPlain b := by
    rw [StartsPlain, hb]
    decide
  have hpresent : Present (a ++ b) ↔ strip (a ++ b) = a ++ b :=
    present_iff_and.trans (and_iff_left fun hempty =>
      hne (by simpa using congrArg String.toList hempty : _ ∧ _).2)
  rw [← hpresent, present_iff, startsPlain_append, endsPlain_append, if_neg hne]
  split_ifs with ha
  · rw [ha, iff_false_intro hstart, iff_false_intro not_startsPlain_empty]
  · rfl

theorem startsPlain_spaced (s : String) : StartsPlain (spaced s) ↔
    StartsPlain s ∧ s.toList.head? ≠ some '_' := by
  rw [StartsPlain, StartsPlain, spaced, String.toList_ofList, List.head?_map]
  cases s.toList.head? with
  | none => simp
  | some c =>
    by_cases hc : c = '_'
    · subst hc
      simp [show isSpace ' ' = true by decide]
    · simp [hc]

theorem endsPlain_spaced (s : String) : EndsPlain (spaced s) ↔
    EndsPlain s ∧ s.toList.getLast? ≠ some '_' := by
  rw [EndsPlain, EndsPlain, spaced, String.toList_ofList, List.getLast?_map]
  cases s.toList.getLast? with
  | none => simp
  | some c =>
    by_cases hc : c = '_'
    · subst hc
      simp [show isSpace ' ' = true by decide]
    · simp [hc]

/-- The entries of a table of labels have no blanks at their ends. -/
def PlainLabels (labels : List (String × String)) : Prop :=
  ∀ l ∈ labels, (StartsPlain l.1 ∧ l.1.toList.head? ≠ some '_' ∧ StartsPlain l.2) ∧
    (EndsPlain l.1 ∧ l.1.toList.getLast? ≠ some '_' ∧ EndsPlain l.2)

theorem startsPlain_labelOf {labels : List (String × String)} (h : PlainLabels labels)
    (s : String) :
    StartsPlain (labelOf labels s) ↔ StartsPlain s ∧ s.toList.head? ≠ some '_' := by
  rw [labelOf]
  cases hl : labels.lookup s with
  | none => rw [Option.getD_none, ← startsPlain_spaced, StartsPlain, head?_title, StartsPlain]
  | some label =>
    obtain ⟨l, l', rfl, -⟩ := List.lookup_eq_some_iff.1 hl
    obtain ⟨⟨hs, hunder, hlabel⟩, -⟩ := h (s, label) (by simp)
    exact iff_of_true hlabel ⟨hs, hunder⟩

theorem endsPlain_labelOf {labels : List (String × String)} (h : PlainLabels labels)
    (s : String) :
    EndsPlain (labelOf labels s) ↔ EndsPlain s ∧ s.toList.getLast? ≠ some '_' := by
  rw [labelOf]
  cases hl : labels.lookup s with
  | none => rw [Option.getD_none, ← endsPlain_spaced, EndsPlain, getLast?_title, EndsPlain]
  | some label =>
    obtain ⟨l, l', rfl, -⟩ := List.lookup_eq_some_iff.1 hl
    obtain ⟨-, hs, hunder, hlabel⟩ := h (s, label) (by simp)
    exact iff_of_true hlabel ⟨hs, hunder⟩

theorem plainLabels_service : PlainLabels ibServiceLabels := by
  unfold PlainLabels
  decide

theorem plainLabels_status : PlainLabels ibConnectionLabels := by
  unfold PlainLabels
  decide

/-! ## The events of the builders -/

/-- What a caller asks to be published. -/
inductive EventArgs where
  | ibConnection (a : IbConnectionArgs)
  | executionsFetch (a : ExecutionsFetchArgs)

/-- The event that is built; `none` where it raises. -/
def EventArgs.build (uuid dedupe : UuidHex) (now : ℚ) : EventArgs → Option SystemMessageEvent
  | .ibConnection a => buildIbConnectionEvent uuid now a
  | .executionsFetch a => some (buildPortfolioTwsExecutionsFetchEvent uuid dedupe now a)

/-- The texts of a connection event that stand alone in a field are trimmed, those with a default
are not empty, and the label of the service does not start, nor the message end, with an
underscore that becomes a blank. -/
structure IbConnectionArgs.Trimmed (a : IbConnectionArgs) : Prop where
  service : Present a.service
  serviceStart : a.service.toList.head? ≠ some '_'
  account : ∀ s ∈ a.account, Present s
  statusFrom : Present a.statusFrom
  statusTo : Present a.statusTo
  reason : ∀ s ∈ a.reason, Present s
  messageEnd : a.reason = none → a.statusTo.toList.getLast? ≠ some '_'

/-- The texts of a fetch event are trimmed. -/
structure ExecutionsFetchArgs.Trimmed (a : ExecutionsFetchArgs) : Prop where
  title : strip a.title = a.title
  message : strip a.message = a.message
  reason : ∀ s ∈ a.reason, Present s
  level : ∀ s ∈ a.level, strip s = s

/-- The texts of an event are trimmed. -/
def EventArgs.Trimmed : EventArgs → Prop
  | .ibConnection a => a.Trimmed
  | .executionsFetch a => a.Trimmed

theorem read_eq_iff (form : Form) (e : SystemMessageEvent) (hid : strip e.messageId = e.messageId)
    (htopic : strip e.topic = e.topic) : e.read form = e ↔
      Present e.level ∧ strip e.service = e.service ∧
      sanitizeSlot (some (blob (form.valueBytes "slot") e.slot).str) = e.slot ∧
      (∀ s ∈ e.account, Present s) ∧ Present e.statusFrom ∧ Present e.statusTo ∧
      strip e.title = e.title ∧ strip e.message = e.message ∧ (∀ s ∈ e.reason, Present s) ∧
      strip e.dedupeKey = e.dedupeKey := by
  have hinfo : Present "info" := by decide
  have hunknown : Present "unknown" := by decide
  rw [← orDefault_strip_iff hinfo, ← orDefault_strip_iff hunknown, ← orDefault_strip_iff hunknown,
    ← orNone_strip_iff, ← orNone_strip_iff]
  cases e
  simp only [SystemMessageEvent.read, SystemMessageEvent.mk.injEq, hid, htopic, true_and]

theorem strip_topicIbConnection :
    strip messageCenterTopicIbConnection = messageCenterTopicIbConnection := by
  decide +kernel

theorem strip_topicExecutions :
    strip messageCenterTopicPortfolioTwsExecutions = messageCenterTopicPortfolioTwsExecutions := by
  decide +kernel

theorem strip_dedupeKey {a : IbConnectionArgs} (h : Present a.statusTo) :
    strip a.dedupeKey = a.dedupeKey := by
  refine (present_iff.2 ⟨?_, ?_⟩).strip_self
  · rw [StartsPlain]
    simp [IbConnectionArgs.dedupeKey, messageCenterTopicIbConnection]
    decide
  · rw [IbConnectionArgs.dedupeKey, endsPlain_append, if_neg h.ne_empty]
    exact (present_iff.1 h).2

theorem strip_title_iff (a : IbConnectionArgs) :
    strip (serviceLabel a.service ++ a.titleRest) = serviceLabel a.service ++ a.titleRest ↔
      StartsPlain a.service ∧ a.service.toList.head? ≠ some '_' := by
  have hhead : a.titleRest.toList.head?.map isSpace = some true := by
    unfold IbConnectionArgs.titleRest
    split_ifs <;> simp <;> decide
  have hlast : EndsPlain a.titleRest := by
    unfold IbConnectionArgs.titleRest
    split_ifs <;> rw [endsPlain_append, if_neg (by decide)] <;> decide
  rw [strip_append_iff hhead, and_iff_left hlast]
  exact startsPlain_labelOf plainLabels_service a.service

theorem endsPlain_reasonPart {reason : Option String} (h : ∀ s ∈ reason, Present s) (t : String) :
    EndsPlain (t ++ optionalPart " (" ")" reason) ↔ (reason = none → EndsPlain t) := by
  cases reason with
  | none => simp [optionalPart]
  | some s =>
    have hclose : ∀ t : String, EndsPlain (t ++ ")") := fun t => by
      rw [endsPlain_append, if_neg (by decide)]
      decide
    rw [optionalPart, if_neg (h s rfl).ne_empty, ← String.append_assoc]
    exact iff_of_true (hclose _) (fun hnone => by cases hnone)

theorem strip_message_iff {a : IbConnectionArgs} (hreason : ∀ s ∈ a.reason, Present s) :
    strip a.message = a.message ↔
      (StartsPlain a.service ∧ a.service.toList.head? ≠ some '_') ∧
        (a.reason = none → EndsPlain a.statusTo ∧ a.statusTo.toList.getLast? ≠ some '_') := by
  have hhead : (a.messageMiddle ++ (statusLabel a.statusTo ++
      optionalPart " (" ")" a.reason)).toList.head?.map isSpace = some true := by
    simp [IbConnectionArgs.messageMiddle]
    decide
  have hmiddle : ¬ EndsPlain a.messageMiddle := by
    rw [IbConnectionArgs.messageMiddle, endsPlain_append, if_neg (by decide)]
    decide
  rw [IbConnectionArgs.message, strip_append_iff hhead, endsPlain_append_of_not hmiddle,
    endsPlain_reasonPart hreason, serviceLabel, startsPlain_labelOf plainLabels_service,
    statusLabel, endsPlain_labelOf plainLabels_status]

theorem present_level (statusTo : String) :
    Present ((ibConnectionLevels.lookup statusTo).getD "info") := by
  have hlevels : ∀ l ∈ ibConnectionLevels, Present l.2 := by
    unfold ibConnectionLevels
    decide
  cases hl : ibConnectionLevels.lookup statusTo with
  | none => decide
  | some level =>
    obtain ⟨l, l', heq, -⟩ := List.lookup_eq_some_iff.1 hl
    exact hlevels (statusTo, level) (by simp [heq])

theorem read_ibConnection_iff (form : Form) (uuid : UuidHex) (now : ℚ) (a : IbConnectionArgs) :
    (ibConnectionEvent uuid now a).read form = ibConnectionEvent uuid now a ↔
      form.valueBytes "slot" = false ∧ a.Trimmed := by
  rw [read_eq_iff form (ibConnectionEvent uuid now a) (present_hex uuid).strip_self
    strip_topicIbConnection]
  dsimp only [ibConnectionEvent]
  rw [IbConnectionArgs.slotName, slot_read_iff, strip_title_iff]
  constructor
  · rintro ⟨-, hservice, hslot, haccount, hfrom, hto, ⟨hstart, hunder⟩, hmessage, hreason, -⟩
    have hne : a.service ≠ "" := fun hempty => not_startsPlain_empty (hempty ▸ hstart)
    exact ⟨hslot, ⟨hservice, hne⟩, hunder, haccount, hfrom, hto, hreason,
      fun hnone => (((strip_message_iff hreason).1 hmessage).2 hnone).2⟩
  · rintro ⟨hslot, htrimmed⟩
    have hstart := (present_iff.1 htrimmed.service).1
    exact ⟨present_level a.statusTo, htrimmed.service.strip_self, hslot, htrimmed.account,
      htrimmed.statusFrom, htrimmed.statusTo, ⟨hstart, htrimmed.serviceStart⟩,
      (strip_message_iff htrimmed.reason).2 ⟨⟨hstart, htrimmed.serviceStart⟩,
        fun hnone => ⟨(present_iff.1 htrimmed.statusTo).2, htrimmed.messageEnd hnone⟩⟩,
      htrimmed.reason, strip_dedupeKey htrimmed.statusTo⟩

/-- The level that is given or the default is read as it is. -/
theorem present_levelOr_iff (a : ExecutionsFetchArgs) :
    Present a.levelOr ↔ ∀ s ∈ a.level, strip s = s := by
  have hdefault : Present (if a.ok then "success" else "error") := by
    cases a.ok <;> decide +kernel
  rw [ExecutionsFetchArgs.levelOr, orDefault]
  cases a.level with
  | none => simpa using hdefault
  | some s =>
    rw [Option.getD_some]
    by_cases hempty : s = ""
    · rw [if_pos hempty]
      refine iff_of_true hdefault fun t ht => ?_
      rw [← Option.some.inj ht, hempty, strip_empty]
    · rw [if_neg hempty]
      constructor
      · intro h t ht
        rw [← Option.some.inj ht]
        exact h.strip_self
      · intro h
        exact ⟨h s rfl, hempty⟩

theorem read_executionsFetch_iff (form : Form) (uuid dedupe : UuidHex) (now : ℚ)
    (a : ExecutionsFetchArgs) :
    (buildPortfolioTwsExecutionsFetchEvent uuid dedupe now a).read form =
        buildPortfolioTwsExecutionsFetchEvent uuid dedupe now a ↔
      form.valueBytes "slot" = false ∧ a.Trimmed := by
  have hservice : strip "ib_operator" = "ib_operator" := by decide +kernel
  have hstatusFrom : Present "unknown" := by decide +kernel
  have hslot : sanitizeSlot (some "host") = "host" := by decide +kernel
  have hstatusTo : Present (if a.ok then "complete" else "failed") := by
    cases a.ok <;> decide +kernel
  have hdedupe : strip (messageCenterTopicPortfolioTwsExecutions ++ ":" ++ dedupe.hex) =
      messageCenterTopicPortfolioTwsExecutions ++ ":" ++ dedupe.hex := by
    refine (present_iff.2 ⟨?_, ?_⟩).strip_self
    · rw [startsPlain_append, if_neg (by decide +kernel)]
      decide +kernel
    · rw [endsPlain_append, if_neg (present_hex dedupe).ne_empty]
      exact (present_iff.1 (present_hex dedupe)).2
  have hread := slot_read_iff (form.valueBytes "slot") (some "host")
  rw [hslot] at hread
  rw [read_eq_iff form (buildPortfolioTwsExecutionsFetchEvent uuid dedupe now a)
    (present_hex uuid).strip_self strip_topicExecutions]
  dsimp only [buildPortfolioTwsExecutionsFetchEvent]
  rw [hread, present_levelOr_iff]
  constructor
  · rintro ⟨hlevel, -, hbytes, -, -, -, htitle, hmessage, hreason, -⟩
    exact ⟨hbytes, htitle, hmessage, hreason, hlevel⟩
  · rintro ⟨hbytes, h⟩
    exact ⟨h.level, hservice, hbytes, by simp, hstatusFrom, hstatusTo, h.title, h.message,
      h.reason, hdedupe⟩

/-- An event that was built comes back as it was exactly when its slot is returned as a text and
the texts that it was built from are trimmed. -/
theorem survives_iff {args : EventArgs} {uuid dedupe : UuidHex} {built now : ℚ} {form : Form}
    {event : SystemMessageEvent} (hbuild : args.build uuid dedupe built = some event)
    (htime : ReadsBack event.occurredAt) :
    Survives now form event ↔ form.valueBytes "slot" = false ∧ args.Trimmed := by
  have hid : strip uuid.hex ≠ "" := by
    rw [(present_hex uuid).strip_self]
    exact (present_hex uuid).ne_empty
  cases args with
  | ibConnection a =>
    rw [EventArgs.build, buildIbConnectionEvent] at hbuild
    split_ifs at hbuild with hclient
    obtain rfl := Option.some.inj hbuild
    have htopic : strip (ibConnectionEvent uuid built a).topic ≠ "" := by
      show strip messageCenterTopicIbConnection ≠ ""
      decide +kernel
    have hslot : (ibConnectionEvent uuid built a).slot ≠ "" := by
      rw [ibConnectionEvent]
      dsimp only
      rw [IbConnectionArgs.slotName]
      exact sanitizeSlot_ne_empty (some a.slot)
    exact (@survives_iff_read (ibConnectionEvent uuid built a) now form hid htopic hslot hclient
      htime).trans (read_ibConnection_iff form uuid built a)
  | executionsFetch a =>
    obtain rfl := Option.some.inj hbuild
    have htopic : strip (buildPortfolioTwsExecutionsFetchEvent uuid dedupe built a).topic ≠ "" := by
      show strip messageCenterTopicPortfolioTwsExecutions ≠ ""
      decide +kernel
    have hslot : (buildPortfolioTwsExecutionsFetchEvent uuid dedupe built a).slot ≠ "" := by
      show "host" ≠ ""
      decide
    exact (@survives_iff_read (buildPortfolioTwsExecutionsFetchEvent uuid dedupe built a) now form
      hid htopic hslot (fun n hn => by cases hn) htime).trans
        (read_executionsFetch_iff form uuid dedupe built a)

/-! ### A client that returns bytes -/

theorem sampleHex_length : (String.ofList (List.replicate 12 '7' ++ '4' :: (List.replicate 3 '7' ++
    '8' :: List.replicate 15 '7'))).toList.length = 32 := by
  rw [String.toList_ofList]
  rfl

theorem sampleHex_digits : ∀ c ∈ (String.ofList (List.replicate 12 '7' ++ '4' ::
    (List.replicate 3 '7' ++ '8' :: List.replicate 15 '7'))).toList,
      ∃ n : Fin 16, c = hexDigit n := by
  rw [String.toList_ofList]
  exact forall_of_all (by decide)

/-- A UUID of one digit. -/
def sampleUuid : UuidHex := ⟨_, sampleHex_length, sampleHex_digits⟩

/-- The host slot of the operator is disconnected. -/
def hostDisconnected : IbConnectionArgs where
  service := "ib_operator"
  slot := "host"
  clientId := some 1
  account := none
  statusFrom := "connected"
  statusTo := "disconnected"
  reason := none
  occurredAt := some (.fin (3 / 2))

theorem readsBack_hostDisconnected :
    ReadsBack (ibConnectionEvent sampleUuid 0 hostDisconnected).occurredAt := by
  have hoccurred : (ibConnectionEvent sampleUuid 0 hostDisconnected).occurredAt = .fin (3 / 2) := by
    decide +kernel
  rw [ReadsBack, hoccurred]
  decide +kernel

theorem survives_iff_hostDisconnected :
    Survives 0 textForm (ibConnectionEvent sampleUuid 0 hostDisconnected) ↔
      textForm.valueBytes "slot" = false ∧ (EventArgs.ibConnection hostDisconnected).Trimmed :=
  survives_iff (show (EventArgs.ibConnection hostDisconnected).build sampleUuid sampleUuid 0 =
    some (ibConnectionEvent sampleUuid 0 hostDisconnected) by decide +kernel)
    readsBack_hostDisconnected

/-- From bytes the slot is read as `b'host'`. -/
theorem not_survives_bytes :
    (EventArgs.ibConnection hostDisconnected).build sampleUuid sampleUuid 0 =
        some (ibConnectionEvent sampleUuid 0 hostDisconnected) ∧
      ReadsBack (ibConnectionEvent sampleUuid 0 hostDisconnected).occurredAt ∧
      ¬ Survives 0 bytesForm (ibConnectionEvent sampleUuid 0 hostDisconnected) := by
  refine ⟨by decide +kernel, readsBack_hostDisconnected, ?_⟩
  rintro ⟨stored, hstored, hparse⟩
  have hfields : systemMessageEventToFields (ibConnectionEvent sampleUuid 0 hostDisconnected) =
      some (ibConnectionEvent sampleUuid 0 hostDisconnected).fields := if_pos (by decide +kernel)
  obtain rfl := Option.some.inj (hfields.symm.trans hstored)
  have hslot : (parseSystemMessageReply 0 (returned bytesForm
      (ibConnectionEvent sampleUuid 0 hostDisconnected).fields)).map SystemMessageEvent.slot =
        some "b'host'" := by
    decide +kernel
  rw [hparse] at hslot
  exact absurd hslot (by decide +kernel)

end Core.MessageCenter
