import BifrostTrade.Core.MessageSurvives
import BifrostTrade.Lib.Dict
import BifrostTrade.Lib.Documents
import BifrostTrade.Lib.JsonRoundTrip

/-!
# Requests to the operator

`ib_operator/protocol.py` and the request of `ib_operator/client.py`: a client writes a command into
a Redis stream, the operator reads it back from the fields of the entry, and stores its answer as
a JSON text under a key that it makes from the id of the request.  The client polls that key.
-/

namespace IbOperator.Protocol

open Py RedisHash

/-! ## Commands -/

/-- `PROTOCOL_VERSION`. -/
def protocolVersion : String := "1"

/-- `ALL_OPS`. -/
def allOps : List String :=
  ["fetch_bars", "fetch_bars_range", "fetch_option_expirations", "fetch_option_snapshot",
    "refresh_option_cache", "fetch_executions", "fetch_accounts_snapshot", "ping",
    "disconnect_all", "reconnect_all"]

/-- `CommandMessage`, with the id of its stream entry. -/
structure CommandMessage where
  reqId : String
  version : String
  op : String
  payload : Json.Members
  caller : String
  deadlineMs : Option ℤ
  streamId : String

/-- `str(uuid.uuid4())`. -/
structure ReqId where
  text : String
  length_text : text.toList.length = 36
  chars : ∀ c ∈ text.toList, c = '-' ∨ ∃ n : Fin 16, c = Json.hexDigit n

/-- `result_key`. -/
def resultKey (keyPrefix reqId : String) : String := keyPrefix ++ reqId

/-- `fields.get(key) or default`. -/
def fieldOr (fields : Hash) (key default : String) : String :=
  match fields.lookup key with
  | some v => if v = "" then default else v
  | none => default

/-- The payload, an object or else empty; an integer of too many digits, which raises past the
handler, counts as invalid too. -/
def readPayload (payloadRaw : String) : Option Json.Members :=
  (Json.loads payloadRaw.toList).map fun v =>
    match v with
    | .object members => members
    | _ => []

/-- The deadline; `none` where it is no integer. -/
def readDeadline (dm : Option String) : Option (Option ℤ) :=
  match dm.filter fun s => strip s ≠ "" with
  | none => some none
  | some s => (intOfText s).toOption.map some

/-- `parse_stream_fields`. -/
def parseStreamFields (fields : Hash) (streamId : String) : Except String CommandMessage :=
  let reqId := strip (fieldOr fields "req_id" "")
  let stripped := strip (fieldOr fields "v" protocolVersion)
  let ver := if stripped = "" then protocolVersion else stripped
  let op := strip (fieldOr fields "op" "")
  let caller := strip (fieldOr fields "caller" "")
  if reqId = "" then .error "missing_req_id"
  else if ver ≠ protocolVersion then .error ("unsupported_version:" ++ ver)
  else if op = "" then .error "missing_op"
  else if op ∉ allOps then .error ("unknown_op:" ++ op)
  else match readPayload (fieldOr fields "payload" "\x7b\x7d") with
    | none => .error "invalid_payload_json"
    | some payload =>
      match readDeadline (fields.lookup "deadline_ms") with
      | none => .error "invalid_deadline_ms"
      | some deadlineMs => .ok
          { reqId, version := ver, op, payload
            caller := if caller = "" then "unknown" else caller
            deadlineMs, streamId }

/-! ## JSON that may not be written -/

mutual

/-- Whether every integer of a value can be printed. -/
def printable : Json.Value → Bool
  | .int n => decide (Printable n)
  | .array items => printableItems items
  | .object members => printableMembers members
  | _ => true

/-- All items of an array are printable. -/
def printableItems : List Json.Value → Bool
  | [] => true
  | v :: items => printable v && printableItems items

/-- All members of an object are printable. -/
def printableMembers : List (List ℕ × Json.Value) → Bool
  | [] => true
  | m :: members => printableMember m && printableMembers members

/-- The value of a member is printable. -/
def printableMember : List ℕ × Json.Value → Bool
  | (_, v) => printable v

end

/-- `json.dumps(value, separators=(",", ":"), default=str)`; `none` where it raises. -/
def jsonDumps (v : Json.Value) : Option String :=
  if printable v then some (String.ofList (Json.dumps v)) else none

/-- The text of the `ValueError` of `int` for too many digits. -/
def digitsError : String :=
  "Exceeds the limit (4300 digits) for integer string conversion; " ++
    "use sys.set_int_max_str_digits() to increase the limit"

/-- `dumps_result`. -/
def dumpsResult (envelope : Json.Value) (maxBytes : ℤ) : Except String String :=
  match jsonDumps envelope with
  | none => .error ("json_encode_error:" ++ digitsError)
  | some s => if maxBytes < (Octets.encodeText s).length then .error "result_too_large" else .ok s

/-! ## The client -/

/-- What `request` is called with, and the id and the time it takes. -/
structure Request where
  op : String
  payload : Json.Members
  caller : String
  reqId : ReqId
  now : ℚ
  timeout : ℚ

/-- `int(time.time() * 1000 + timeout * 1000)`. -/
def Request.deadlineMs (r : Request) : Option ℤ :=
  match nearest (r.now * 1000), nearest (r.timeout * 1000) with
  | .fin a, .fin b => (nearest (a + b)).toInt
  | _, _ => none

/-- The fields of the stream entry; `none` where a conversion raises. -/
def Request.fields (r : Request) : Option Hash :=
  match r.deadlineMs with
  | none => none
  | some deadlineMs =>
      match jsonDumps (.object r.payload), (intText deadlineMs).toOption with
      | some payload, some deadline => some
          [("req_id", r.reqId.text), ("v", protocolVersion), ("op", r.op), ("payload", payload),
            ("caller", r.caller), ("deadline_ms", deadline)]
      | _, _ => none

/-- `{"ok": False, "error": error}`. -/
def errorEnvelope (error : String) : Json.Value :=
  .object [(Iso.codes "ok".toList, .bool false),
    (Iso.codes "error".toList, .text (Iso.codes error.toList))]

/-- The loop of `request` over what the polls before the deadline answer. -/
def pollLoop : List (Except String (Option String)) → Json.Value
  | [] => errorEnvelope "timeout_waiting_for_operator"
  | .error e :: _ => errorEnvelope ("redis_get:" ++ e)
  | .ok none :: polls => pollLoop polls
  | .ok (some raw) :: polls =>
      if raw = "" then pollLoop polls
      else (Json.loads raw.toList).getD (errorEnvelope "invalid_result_json")

/-- The texts under the result keys, by the ids of their requests. -/
abbrev Stored := List (String × String)

/-- What the polls for a key answer: before each of them some results are stored. -/
def answers (keyPrefix reqId : String) : Stored → List Stored → List (Except String (Option String))
  | _, [] => []
  | results, sets :: rest =>
      let results := Dict.setItems results (sets.map fun s => (resultKey keyPrefix s.1, s.2))
      .ok (results.lookup (resultKey keyPrefix reqId)) :: answers keyPrefix reqId results rest

/-! ## What is written can be read -/

section Written

variable {v : Json.Value}

theorem printableItems_eq (items : List Json.Value) :
    printableItems items = items.all printable := by
  induction items with
  | nil => rfl
  | cons v items ih => rw [printableItems, ih, List.all_cons]

theorem printableMembers_eq (members : Json.Members) :
    printableMembers members = members.all fun m => printable m.2 := by
  induction members with
  | nil => rfl
  | cons m members ih =>
    obtain ⟨key, v⟩ := m
    rw [printableMembers, printableMember, ih, List.all_cons]

theorem printable_of_writable (h : Json.Writable v) : printable v = true := by
  induction h with
  | int h => exact decide_eq_true h
  | array h ih =>
    rw [printable, printableItems_eq, List.all_eq_true]
    exact ih
  | object hkeys hpoints h ih =>
    rw [printable, printableMembers_eq, List.all_eq_true]
    exact ih
  | _ => rfl

theorem jsonDumps_of_writable (h : Json.Writable v) :
    jsonDumps v = some (String.ofList (Json.dumps v)) := by
  rw [jsonDumps, if_pos (printable_of_writable h)]

/-- The answer that is stored for an envelope, unless it is too large. -/
theorem dumpsResult_of_writable (h : Json.Writable v) {maxBytes : ℤ}
    (hsize : (Json.dumps v).length ≤ maxBytes) :
    dumpsResult v maxBytes = .ok (String.ofList (Json.dumps v)) := by
  have hascii : ∀ c ∈ (String.ofList (Json.dumps v)).toList, c.toNat < 128 := by
    rw [String.toList_ofList]
    exact Json.ascii_dumps h
  have hlength : (Octets.encodeText (String.ofList (Json.dumps v))).length =
      (Json.dumps v).length := by
    rw [Octets.encodeText_ascii hascii, String.toList_ofList, List.length_map]
  rw [dumpsResult, jsonDumps_of_writable h]
  dsimp only
  rw [hlength, if_neg (not_lt.2 hsize)]

theorem ofList_dumps_ne_empty (v : Json.Value) : String.ofList (Json.dumps v) ≠ "" := by
  obtain ⟨c, cs, hcs, -⟩ := Json.startsValue_dumps v
  intro heq
  have hnil := congrArg String.toList heq
  rw [String.toList_ofList, hcs] at hnil
  cases hnil

theorem readPayload_dumps {members : Json.Members} (h : Json.Writable (.object members)) :
    readPayload (String.ofList (Json.dumps (.object members))) = some members := by
  rw [readPayload, String.toList_ofList, Json.loads_dumps h, Option.map_some]

end Written

/-! ## The command that the operator reads -/

theorem ReqId.strip_text (id : ReqId) : strip id.text = id.text := by
  refine strip_of_forall fun c hc => ?_
  have hhex : ∀ n : Fin 16, isSpace (Json.hexDigit n) = false := by decide
  rcases id.chars c hc with rfl | ⟨n, rfl⟩
  · decide
  · exact hhex n

theorem ReqId.text_ne_empty (id : ReqId) : id.text ≠ "" := by
  intro heq
  have hlength := id.length_text
  rw [heq] at hlength
  cases hlength

theorem readDeadline_toString {n : ℤ} (hn : Printable n) :
    readDeadline (some (toString n)) = some (some n) := by
  have hblank : strip (toString n) ≠ "" :=
    strip_ne_empty_of_readFloat (readFloat_toString n)
  rw [readDeadline, Option.filter_some, if_pos (decide_eq_true hblank)]
  dsimp only
  rw [Core.MessageCenter.intOfText_toString hn]
  rfl

theorem intText_toOption {n : ℤ} {s : String} (h : (intText n).toOption = some s) :
    Printable n ∧ s = toString n := by
  unfold intText at h
  split_ifs at h with hn
  · exact ⟨hn, (Option.some.inj h).symm⟩
  · cases h

/-- What the operator reads of a request. -/
def Request.command (r : Request) (deadline : ℤ) (streamId : String) : CommandMessage where
  reqId := r.reqId.text
  version := protocolVersion
  op := r.op
  payload := r.payload
  caller := if strip r.caller = "" then "unknown" else strip r.caller
  deadlineMs := some deadline
  streamId := streamId

theorem fieldOr_of_ne {fields : Hash} {key v default : String} (h : fields.lookup key = some v)
    (hv : v ≠ "") : fieldOr fields key default = v := by
  rw [fieldOr, h]
  exact if_neg hv

/-- An empty caller is as none. -/
theorem fieldOr_empty {fields : Hash} {key v : String} (h : fields.lookup key = some v) :
    fieldOr fields key "" = v := by
  rw [fieldOr, h]
  dsimp only
  split_ifs with hv
  · exact hv.symm
  · rfl

theorem parse_request {r : Request} (hop : r.op ∈ allOps)
    (hpayload : Json.Writable (.object r.payload)) {fields : Hash}
    (hfields : r.fields = some fields) (streamId : String) :
    ∃ deadline, r.deadlineMs = some deadline ∧
      parseStreamFields fields streamId = .ok (r.command deadline streamId) := by
  have hops : ∀ op ∈ allOps, strip op = op ∧ op ≠ "" := by decide
  obtain ⟨hstrip, hne⟩ := hops r.op hop
  unfold Request.fields at hfields
  cases hdeadline : r.deadlineMs with
  | none =>
    rw [hdeadline] at hfields
    cases hfields
  | some deadline =>
    refine ⟨deadline, rfl, ?_⟩
    rw [hdeadline, jsonDumps_of_writable hpayload] at hfields
    dsimp only at hfields
    cases htext : (intText deadline).toOption with
    | none =>
      rw [htext] at hfields
      cases hfields
    | some text =>
      obtain ⟨hprintable, rfl⟩ := intText_toOption htext
      rw [htext] at hfields
      obtain rfl := Option.some.inj hfields
      have hid := r.reqId.text_ne_empty
      generalize hp : String.ofList (Json.dumps (.object r.payload)) = payload
      have hread : readPayload payload = some r.payload := hp ▸ readPayload_dumps hpayload
      have hpne : payload ≠ "" := hp ▸ ofList_dumps_ne_empty _
      unfold parseStreamFields
      rw [fieldOr_of_ne (v := r.reqId.text) rfl hid,
        fieldOr_of_ne (v := protocolVersion) rfl (by decide),
        fieldOr_of_ne (v := r.op) rfl hne, fieldOr_empty (v := r.caller) rfl,
        fieldOr_of_ne (v := payload) rfl hpne, r.reqId.strip_text, hstrip, hread,
        show strip protocolVersion = protocolVersion from by decide]
      dsimp only
      rw [if_neg hid, if_neg (by decide), if_neg hne, if_neg (not_not.2 hop)]
      have hlookup : List.lookup "deadline_ms"
          [("req_id", r.reqId.text), ("v", protocolVersion), ("op", r.op), ("payload", payload),
            ("caller", r.caller), ("deadline_ms", toString deadline)] = some (toString deadline) :=
        rfl
      rw [hlookup, readDeadline_toString hprintable]
      rfl

/-! ## The answer that the client gets -/

theorem resultKey_inj {keyPrefix a b : String} :
    resultKey keyPrefix a = resultKey keyPrefix b ↔ a = b := by
  unfold resultKey
  exact ⟨fun h => String.append_right_inj keyPrefix |>.1 h, fun h => h ▸ rfl⟩

/-- The results that are stored for a request. -/
def setsFor (reqId : String) (sets : Stored) : List String :=
  (sets.filter (·.1 = reqId)).map Prod.snd

section Polls

variable {keyPrefix reqId text : String}

/-- Results of other requests leave the key as it was, and results of the request set it. -/
theorem lookup_sets (keyPrefix : String) {sets : Stored}
    (hsets : ∀ t ∈ setsFor reqId sets, t = text) (results : Stored) :
    (Dict.setItems results (sets.map fun s => (resultKey keyPrefix s.1, s.2))).lookup
        (resultKey keyPrefix reqId) =
      if setsFor reqId sets = [] then results.lookup (resultKey keyPrefix reqId)
      else some text := by
  induction sets generalizing results with
  | nil => rfl
  | cons s sets ih =>
    have hrest : ∀ t ∈ setsFor reqId sets, t = text := fun t ht => by
      obtain ⟨x, hx, rfl⟩ := List.mem_map.1 ht
      obtain ⟨hmem, hid⟩ := List.mem_filter.1 hx
      exact hsets _ (List.mem_map.2 ⟨x, List.mem_filter.2 ⟨List.mem_cons_of_mem _ hmem, hid⟩, rfl⟩)
    have hcons : Dict.setItems results ((s :: sets).map fun s => (resultKey keyPrefix s.1, s.2)) =
        Dict.setItems (Dict.setItem results (resultKey keyPrefix s.1) s.2)
          (sets.map fun s => (resultKey keyPrefix s.1, s.2)) := rfl
    rw [hcons, ih hrest, Dict.lookup_setItem]
    by_cases hid : s.1 = reqId
    · have hvalue : s.2 = text := hsets _ (List.mem_map.2
        ⟨s, List.mem_filter.2 ⟨List.mem_cons_self, decide_eq_true hid⟩, rfl⟩)
      have hfor : setsFor reqId (s :: sets) ≠ [] := by simp [setsFor, hid]
      rw [if_pos (resultKey_inj.2 hid.symm), if_neg hfor, hvalue, ite_self]
    · have hfor : setsFor reqId (s :: sets) = setsFor reqId sets := by simp [setsFor, hid]
      rw [if_neg fun h => hid (resultKey_inj.1 h).symm, hfor]

/-- The client answers the result that is stored for it, at the first poll that finds it. -/
theorem pollLoop_answers {envelope : Json.Value} (hne : text ≠ "")
    (hload : Json.loads text.toList = some envelope) {rounds : List Stored}
    (hsets : ∀ sets ∈ rounds, ∀ t ∈ setsFor reqId sets, t = text) {results : Stored}
    (hresults : results.lookup (resultKey keyPrefix reqId) = none)
    (hanswered : ∃ sets ∈ rounds, setsFor reqId sets ≠ []) :
    pollLoop (answers keyPrefix reqId results rounds) = envelope := by
  induction rounds generalizing results with
  | nil =>
    obtain ⟨sets, hsets, -⟩ := hanswered
    exact absurd hsets List.not_mem_nil
  | cons sets rounds ih =>
    rw [List.forall_mem_cons] at hsets
    have hlookup := lookup_sets keyPrefix hsets.1 results
    rw [answers]
    by_cases hnow : setsFor reqId sets = []
    · rw [if_pos hnow, hresults] at hlookup
      rw [hlookup, pollLoop]
      refine ih hsets.2 hlookup ?_
      obtain ⟨later, hlater, hne⟩ := hanswered
      rcases List.mem_cons.1 hlater with rfl | hlater
      · exact absurd hnow hne
      · exact ⟨later, hlater, hne⟩
    · rw [if_neg hnow] at hlookup
      rw [hlookup, pollLoop, if_neg hne, hload, Option.getD_some]

end Polls

/-- **A request is answered with the answer to it.**  The fields of a request to a known operation,
with a payload that can be written, are read as the command that was asked for, with its payload,
its caller and its deadline.  An envelope that is small enough can be stored, and whatever is
stored for other requests between the polls, a client for which this envelope is stored, under the
id that the command has, answers it. -/
theorem request_answered {r : Request} (hop : r.op ∈ allOps)
    (hpayload : Json.Writable (.object r.payload)) {fields : Hash}
    (hfields : r.fields = some fields) (streamId : String) :
    ∃ deadline command, r.deadlineMs = some deadline ∧
      parseStreamFields fields streamId = .ok command ∧ command = r.command deadline streamId ∧
      ∀ (envelope : Json.Members) (maxBytes : ℤ), Json.Writable (.object envelope) →
        (Json.dumps (.object envelope)).length ≤ maxBytes →
        ∃ text, dumpsResult (.object envelope) maxBytes = .ok text ∧
          ∀ (keyPrefix : String) (rounds : List Stored),
            (∀ sets ∈ rounds, ∀ t ∈ setsFor command.reqId sets, t = text) →
            (∃ sets ∈ rounds, setsFor command.reqId sets ≠ []) →
            pollLoop (answers keyPrefix r.reqId.text [] rounds) = .object envelope := by
  obtain ⟨deadline, hdeadline, hparse⟩ := parse_request hop hpayload hfields streamId
  refine ⟨deadline, _, hdeadline, hparse, rfl, fun envelope maxBytes henvelope hsize => ?_⟩
  refine ⟨_, dumpsResult_of_writable henvelope hsize, fun keyPrefix rounds hsets hanswered => ?_⟩
  have hload : Json.loads (String.ofList (Json.dumps (.object envelope))).toList =
      some (.object envelope) := by
    rw [String.toList_ofList, Json.loads_dumps henvelope]
  exact pollLoop_answers (ofList_dumps_ne_empty _) hload hsets rfl hanswered

/-- A request for bars. -/
def barsRequest : Request where
  op := "fetch_bars"
  payload := [(Iso.codes "symbol".toList, .text (Iso.codes "SPY".toList)),
    (Iso.codes "bars".toList, .array [.int 5, .float (.fin (1 / 2)), .null])]
  caller := " api "
  reqId :=
    { text := "00000000-0000-4000-8000-00000000000a"
      length_text := by decide
      chars := by
        have hall : "00000000-0000-4000-8000-00000000000a".toList.all
            (fun c => c = '-' ∨ ∃ n : Fin 16, c = Json.hexDigit n) = true := by decide
        exact fun c hc => of_decide_eq_true (List.all_eq_true.1 hall c hc) }
  now := 1700000000
  timeout := 120

theorem writable_bars : Json.Writable (.object barsRequest.payload) := by
  have hfloat : ∀ q, Double.fin (1 / 2) = .fin q → nearest q = .fin q := by
    intro q hq
    obtain rfl := Double.fin.inj hq
    decide +kernel
  refine .object (by decide) (by decide) ?_
  simp only [barsRequest, List.forall_mem_cons]
  refine ⟨.text (by decide), .array ?_, fun m hm => absurd hm List.not_mem_nil⟩
  simp only [List.forall_mem_cons]
  exact ⟨.int (by decide), .float hfloat, .null, fun v hv => absurd hv List.not_mem_nil⟩

theorem fields_bars : barsRequest.fields = some
    [("req_id", barsRequest.reqId.text), ("v", "1"), ("op", "fetch_bars"),
      ("payload", String.ofList (Json.dumps (.object barsRequest.payload))), ("caller", " api "),
      ("deadline_ms", "1700000120000")] := by
  have hdeadline : barsRequest.deadlineMs = some 1700000120000 := by decide +kernel
  have htext : (intText 1700000120000).toOption = some "1700000120000" := by decide +kernel
  rw [Request.fields, hdeadline, jsonDumps_of_writable writable_bars]
  dsimp only
  rw [htext]
  rfl

theorem request_answered_bars : ∃ deadline command, barsRequest.deadlineMs = some deadline ∧
    parseStreamFields
      [("req_id", barsRequest.reqId.text), ("v", "1"), ("op", "fetch_bars"),
        ("payload", String.ofList (Json.dumps (.object barsRequest.payload))), ("caller", " api "),
        ("deadline_ms", "1700000120000")] "1-0" = .ok command ∧
    command = barsRequest.command deadline "1-0" ∧
    ∀ (envelope : Json.Members) (maxBytes : ℤ), Json.Writable (.object envelope) →
      (Json.dumps (.object envelope)).length ≤ maxBytes →
      ∃ text, dumpsResult (.object envelope) maxBytes = .ok text ∧
        ∀ (keyPrefix : String) (rounds : List Stored),
          (∀ sets ∈ rounds, ∀ t ∈ setsFor command.reqId sets, t = text) →
          (∃ sets ∈ rounds, setsFor command.reqId sets ≠ []) →
          pollLoop (answers keyPrefix barsRequest.reqId.text [] rounds) = .object envelope :=
  request_answered (r := barsRequest) (by decide) writable_bars fields_bars "1-0"

end IbOperator.Protocol
