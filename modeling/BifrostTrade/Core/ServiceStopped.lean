import BifrostTrade.Core.MessageSurvives
import BifrostTrade.Operator.HealthHash

/-!
# What is announced when a service is stopped

`publish_ib_service_stopped_messages` of `core/message_center.py` reads the slots that look
connected out of the health hash that the service last wrote.  The operator writes its hash with
`ib_operator/health_redis.py`, under names that the two files share only by agreement.
-/

namespace Core.MessageCenter

open Py RedisHash IbOperator

/-! ## The slots of a hash -/

/-- `redis_hash_field_truthy` of a hash of texts. -/
def redisHashFieldTruthy (m : Hash) (field : String) : Bool :=
  (m.lookup field).any fun v => lower (strip v) ∈ ["1", "true", "yes", "on"]

/-- `_cid`: the first of the fields that is a number decides. -/
def cid (m : Hash) : List String → Option ℤ
  | [] => none
  | k :: keys =>
      match ((m.lookup k).filter nonblank).bind fun v => (intOfText v).toOption with
      | some n => if 0 < n then some n else none
      | none => cid m keys

/-- A slot that looks connected, with its client id. -/
def slotOf (slot : String) (live : Bool) (clientId : Option ℤ) : List (String × ℤ) :=
  if live then (clientId.map fun n => (slot, n)).toList else []

/-- Whether the hash says that the secondary is connected, or is there with a client id. -/
def secondaryLive (m : Hash) : Bool :=
  redisHashFieldTruthy m "secondary_connected" ||
    (redisHashFieldTruthy m "secondary_present" && (cid m ["secondary_client_id"]).isSome)

/-- `_connected_slots_from_ingest_health_hash`. -/
def connectedSlots (serviceId : String) (m : Hash) : List (String × ℤ) :=
  let sid := strip serviceId
  if sid = "ib_ingestor" ∨ sid = "ib_market" then
    slotOf "host" (redisHashFieldTruthy m "connected") (cid m ["client_id"])
  else if sid = "ib_account_agent" then
    slotOf "host"
      (redisHashFieldTruthy m "host_connected" || redisHashFieldTruthy m "connected" ||
        redisHashFieldTruthy m "host_alive")
      (cid m ["host_client_id", "client_id"]) ++
    slotOf "secondary" (secondaryLive m) (cid m ["secondary_client_id"])
  else if sid = "ib_operator" then
    slotOf "host"
      (redisHashFieldTruthy m "host_connected" || redisHashFieldTruthy m "connected" ||
        redisHashFieldTruthy m "host_alive" || redisHashFieldTruthy m "operator_connected")
      (cid m ["host_client_id", "client_id", "operator_client_id"]) ++
    slotOf "secondary" (secondaryLive m) (cid m ["secondary_client_id"])
  else []

/-- `INGEST_SERVICE_ID_TO_MC_SERVICE`. -/
def ingestServiceIdToMcService : List (String × String) :=
  [("ib_ingestor", "ib_ingestor"), ("ib_market", "ib_ingestor"),
    ("ib_account_agent", "ib_account_agent"), ("ib_operator", "ib_operator")]

/-- `IB_DISCONNECT_REASON_SERVICE_STOPPED`. -/
def ibDisconnectReasonServiceStopped : String := "Service stopped"

/-- The events that `publish_ib_service_stopped_messages` builds, in order. -/
def serviceStoppedEvents (serviceId : String) (m : Hash) (occurredAt : Double) :
    List IbConnectionArgs :=
  match ingestServiceIdToMcService.lookup (strip serviceId) with
  | none => []
  | some mcService => (connectedSlots serviceId m).map fun s =>
      { service := mcService, slot := s.1, clientId := some s.2, account := none
        statusFrom := "connected", statusTo := "disconnected"
        reason := some ibDisconnectReasonServiceStopped, occurredAt := some occurredAt }

/-! ## The hash of the operator -/

/-- The event of a slot of the operator that is announced as disconnected. -/
def operatorStopped (slot : String) (clientId : ℤ) (occurredAt : Double) : IbConnectionArgs where
  service := "ib_operator"
  slot := slot
  clientId := some clientId
  account := none
  statusFrom := "connected"
  statusTo := "disconnected"
  reason := some ibDisconnectReasonServiceStopped
  occurredAt := some occurredAt

/-- What the health of the operator has announced when it is stopped. -/
def stoppedOf (h : OperatorHealth) (occurredAt : Double) : List IbConnectionArgs :=
  (if (h.hostSlot.connected ∨ h.alive) ∧ 0 < h.hostSlot.clientId then
    [operatorStopped "host" h.hostSlot.clientId occurredAt] else []) ++
  (h.secondarySlot.filter fun s => 0 < s.clientId).toList.map fun s =>
    operatorStopped "secondary" s.clientId occurredAt

section Operator

variable {m : Hash}

theorem truthy_of_boolText {field : String} {b : Bool} (h : m.lookup field = some (boolText b)) :
    redisHashFieldTruthy m field = b := by
  rw [redisHashFieldTruthy, h]
  cases b <;> decide

theorem truthy_of_none {field : String} (h : m.lookup field = none) :
    redisHashFieldTruthy m field = false := by
  rw [redisHashFieldTruthy, h]
  rfl

theorem cid_of_lookup {k : String} {n : ℤ} (hn : Printable n)
    (h : m.lookup k = some (toString n)) (keys : List String) :
    cid m (k :: keys) = if 0 < n then some n else none := by
  rw [cid, h, Option.filter_some, if_pos (nonblank_toString n), Option.bind_some,
    intOfText_toString hn]
  rfl

/-- A field that the operator does not write is left as it was. -/
theorem lookup_refresh_of_notMem (old : Hash) (now : Double) (h : OperatorHealth) {key : String}
    (hkey : key ∉ (toRedisHash now h).map Prod.fst) (hlegacy : key ∉ legacyFields) :
    (refresh old now h).lookup key = old.lookup key := by
  rw [refresh, pruneLegacy, lookup_hdel, if_neg hlegacy, lookup_hset,
    lookup_eq_none_iff.2 fun hmem => hkey hmem, Option.none_or]

theorem connected_notMem (now : Double) (h : OperatorHealth) :
    "connected" ∉ (toRedisHash now h).map Prod.fst := by
  cases hsec : h.secondarySlot with
  | none =>
    simp only [toRedisHash, hsec, slotFields, serviceFields, secondaryFields, List.map_cons,
      List.map_nil, List.map_append]
    decide +kernel
  | some s =>
    simp only [toRedisHash, hsec, slotFields, serviceFields, secondaryFields, List.map_cons,
      List.map_nil, List.map_append]
    decide +kernel

theorem map_slotOf {β : Type} (f : String × ℤ → β) (slot : String) (connected alive : Bool)
    (n : ℤ) : (slotOf slot (connected || alive) (if 0 < n then some n else none)).map f =
      if (connected ∨ alive) ∧ 0 < n then [f (slot, n)] else [] := by
  cases connected <;> cases alive <;> by_cases hn : 0 < n <;> simp [slotOf, hn]

/-- The secondary slot of a hash that has the fields of one. -/
theorem slotOf_secondary {s : Option IbOperator.Slot}
    (hfields : ∀ f ∈ secondaryFields s, m.lookup f.1 = some f.2)
    (hs : ∀ x ∈ s, Printable x.clientId) :
    slotOf "secondary" (secondaryLive m) (cid m ["secondary_client_id"]) =
      (s.filter fun x => 0 < x.clientId).toList.map fun x => ("secondary", x.clientId) := by
  cases s with
  | none =>
    have hclient : cid m ["secondary_client_id"] = none := by
      have hzero := hfields ("secondary_client_id", "0") (by decide)
      rw [cid_of_lookup (n := 0) (by decide) hzero]
      rfl
    rw [hclient]
    cases secondaryLive m <;> rfl
  | some x =>
    rw [secondaryFields, List.forall_mem_cons] at hfields
    have hpresent : redisHashFieldTruthy m "secondary_present" = true :=
      truthy_of_boolText (b := true) hfields.1
    have hclient := cid_of_lookup (hs x rfl)
      (hfields.2 ("secondary_" ++ "client_id", toString x.clientId) (by simp [slotFields])) []
    rw [show "secondary_" ++ "client_id" = "secondary_client_id" from rfl] at hclient
    rw [secondaryLive, hpresent, hclient]
    by_cases hpos : 0 < x.clientId <;> simp [slotOf, hpos, Option.filter]

/-- **Stopping the operator announces the slots that it reported.**  Whatever the hash of the
operator held before, but a field `connected`, after a refresh the slots announced as disconnected
are those of the health that was written: the host where it is connected or the service is alive,
and the secondary slot where there is one, each with its client id where that is positive. -/
theorem serviceStopped_refresh (old : Hash) (now occurredAt : Double) (h : OperatorHealth)
    (hold : old.lookup "connected" = none) (hhost : Printable h.hostSlot.clientId)
    (hsecondary : ∀ s ∈ h.secondarySlot, Printable s.clientId) :
    serviceStoppedEvents "ib_operator" (refresh old now h) occurredAt = stoppedOf h occurredAt := by
  have hwritten : ∀ f ∈ toRedisHash now h, (refresh old now h).lookup f.1 = some f.2 :=
    fun f hf => lookup_refresh old now h hf
  have hconnected := truthy_of_boolText (hwritten ("host_connected", boolText h.hostSlot.connected)
    (mem_toRedisHash (.inl (by simp [slotFields]))))
  have halive := truthy_of_boolText (hwritten ("host_alive", boolText h.alive)
    (mem_toRedisHash (.inr (.inl List.mem_cons_self))))
  have hlegacy : redisHashFieldTruthy (refresh old now h) "operator_connected" = false :=
    truthy_of_none (lookup_refresh_legacy old now h (by decide))
  have hstray : redisHashFieldTruthy (refresh old now h) "connected" = false := truthy_of_none (by
    rw [lookup_refresh_of_notMem old now h (connected_notMem now h) (by decide), hold])
  have hclient := cid_of_lookup hhost
    (hwritten ("host_client_id", toString h.hostSlot.clientId)
      (mem_toRedisHash (.inl (by simp [slotFields])))) ["client_id", "operator_client_id"]
  have hsec := slotOf_secondary
    (fun f hf => hwritten f (mem_toRedisHash (.inr (.inr hf)))) hsecondary
  have hservice : ingestServiceIdToMcService.lookup (strip "ib_operator") = some "ib_operator" := by
    decide
  have hslots : connectedSlots "ib_operator" (refresh old now h) =
      slotOf "host" (h.hostSlot.connected || h.alive)
        (if 0 < h.hostSlot.clientId then some h.hostSlot.clientId else none) ++
      (h.secondarySlot.filter fun x => 0 < x.clientId).toList.map
        fun x => ("secondary", x.clientId) := by
    rw [connectedSlots, show strip "ib_operator" = "ib_operator" from by decide,
      if_neg (by decide), if_neg (by decide), if_pos rfl, hconnected, halive, hlegacy, hstray,
      hclient, hsec, Bool.or_false, Bool.or_false]
  rw [serviceStoppedEvents, hservice, stoppedOf]
  dsimp only
  rw [hslots, List.map_append, map_slotOf, List.map_map]
  rfl

/-- Health of two slots, the host not connected. -/
def idleHealth : OperatorHealth :=
  { quietHealth with
    host := some { quietHost with connected := false, clientId := 4 }
    secondary := some { quietHost with clientId := 9 }
    serviceAlive := none }

theorem serviceStopped_refresh_older :
    serviceStoppedEvents "ib_operator" (refresh olderHash (.fin 100) idleHealth) (.fin 100) =
      stoppedOf idleHealth (.fin 100) :=
  serviceStopped_refresh olderHash (.fin 100) (.fin 100) idleHealth (by decide) (by decide)
    fun s hs => by cases hs; decide

end Operator

end Core.MessageCenter
