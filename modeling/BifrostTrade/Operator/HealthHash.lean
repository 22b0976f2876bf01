import BifrostTrade.Lib.Binary64
import BifrostTrade.Lib.RedisHash

/-!
# The operator's health hash

`ib_operator/health_redis.py`: the health of the operator's two slots, written into a Redis hash
that may still hold fields of older layouts, and read back from it.  The older fields are deleted
after the write, so the reader never falls back to one (`fromRedisHash_refresh`).
-/

namespace IbOperator

open Py RedisHash

/-! ## Health -/

/-- A connection slot with all of its fields. -/
structure Slot where
  connected : Bool
  clientId : ℤ
  lastError : Option String
  reconnects : ℤ
  ibProbeAt : Double
  ibProbeOk : Bool
  ibProbeIntervalSec : Double
  deriving DecidableEq

/-- What is read of a slot without fields. -/
def Slot.blank : Slot := ⟨false, 0, none, 0, .fin 0, false, .fin 0⟩

/-- The operator's health as a dictionary; `operator`, `account2` and `operator_alive` are the older
names of its entries. -/
structure OperatorHealth where
  host : Option Slot
  operator : Option Slot
  secondary : Option Slot
  account2 : Option Slot
  serviceAlive : Option Bool
  operatorAlive : Option Bool
  updatedAt : Option Double
  lastCmdTs : Double
  cmdCount : ℤ
  serviceHeartbeatIntervalSec : Double
  lastServiceHeartbeatAt : Double
  nextServiceHeartbeatInS : Double
  serviceHeartbeatReconnectInProgress : Option String

/-- The host slot, under either of its names. -/
def OperatorHealth.hostSlot (h : OperatorHealth) : Slot := (h.host.or h.operator).getD .blank

/-- The secondary slot, under either of its names. -/
def OperatorHealth.secondarySlot (h : OperatorHealth) : Option Slot := h.secondary.or h.account2

/-- Whether the operator counts as alive: the newer field, else the older one, else yes. -/
def OperatorHealth.alive (h : OperatorHealth) : Bool :=
  (h.serviceAlive.or h.operatorAlive).getD true

/-- The health that is read from a hash. -/
structure HealthRead where
  host : Slot
  serviceAlive : Bool
  msgCount : ℤ
  serviceHeartbeatIntervalSec : Double
  lastServiceHeartbeatAt : Double
  nextServiceHeartbeatInS : Double
  serviceHeartbeatReconnectInProgress : String
  lastMsgTs : Double
  secondary : Option Slot

/-! ## Writing -/

/-- `LEGACY_OPERATOR_HEALTH_HASH_FIELDS`. -/
def legacyFields : List String :=
  ["operator_connected", "operator_client_id", "operator_last_error", "operator_alive",
    "account2_present", "account2_connected", "account2_client_id", "account2_last_error",
    "account2_reconnects", "reconnects"]

/-- A truth value in the hash. -/
def boolText (b : Bool) : String := if b then "1" else "0"

/-- `x > 0`. -/
def isPositive : Double → Bool
  | .fin x => 0 < x
  | .posInf => true
  | _ => false

/-- The fields of a slot that is there. -/
def slotFields (slot : String) (s : Slot) : Hash :=
  [(slot ++ "connected", boolText s.connected), (slot ++ "client_id", toString s.clientId),
    (slot ++ "last_error", textOrEmpty s.lastError), (slot ++ "reconnects", toString s.reconnects),
    (slot ++ "ib_probe_at", reprFloat s.ibProbeAt),
    (slot ++ "ib_probe_ok", boolText s.ibProbeOk),
    (slot ++ "ib_probe_interval_sec", reprFloat s.ibProbeIntervalSec)]

/-- The fields of the secondary slot, which are overwritten when it is absent. -/
def secondaryFields : Option Slot → Hash
  | some s => ("secondary_present", "1") :: slotFields "secondary_" s
  | none =>
      [("secondary_present", "0"), ("secondary_connected", "0"), ("secondary_client_id", "0"),
        ("secondary_last_error", ""), ("secondary_reconnects", "0"), ("secondary_ib_probe_at", "0"),
        ("secondary_ib_probe_ok", "0"), ("secondary_ib_probe_interval_sec", "0")]

/-- The fields that belong to no slot. -/
def serviceFields (now : Double) (h : OperatorHealth) : Hash :=
  let updated := if h.updatedAt.getD now = .fin 0 then now else h.updatedAt.getD now
  [("host_alive", boolText h.alive), ("msg_count", toString h.cmdCount),
    ("last_msg_ts", reprFloat (if isPositive h.lastCmdTs then h.lastCmdTs else updated)),
    ("updated_at", reprFloat updated),
    ("service_heartbeat_interval_sec", reprFloat h.serviceHeartbeatIntervalSec),
    ("last_service_heartbeat_at", reprFloat h.lastServiceHeartbeatAt),
    ("next_service_heartbeat_in_s", reprFloat h.nextServiceHeartbeatInS),
    ("service_heartbeat_reconnect_in_progress",
      textOrEmpty h.serviceHeartbeatReconnectInProgress)]

/-- `operator_health_dict_to_redis_hash`. -/
def toRedisHash (now : Double) (h : OperatorHealth) : Hash :=
  slotFields "host_" h.hostSlot ++ serviceFields now h ++ secondaryFields h.secondarySlot

/-- `prune_legacy_operator_health_hash_fields`. -/
def pruneLegacy (m : Hash) : Hash := hdel m legacyFields

/-- The hash after a health refresh. -/
def refresh (old : Hash) (now : Double) (h : OperatorHealth) : Hash :=
  pruneLegacy (hset old (toRedisHash now h))

/-! ## Reading -/

/-- A text that is not blank. -/
def nonblank (v : String) : Bool := strip v ≠ ""

/-- `_truthy_field`. -/
def truthyField (v : Option String) : Bool :=
  v.any fun s => strip s ∈ ["1", "true", "True", "yes", "Yes"]

/-- `_err_from_field`. -/
def errFromField (v : Option String) : Option String := v.filter fun s => s ≠ ""

/-- `_safe_int`. -/
def safeInt (v : Option String) : ℤ := ((v.filter nonblank).bind parseInt).getD 0

/-- `_field_map`: the first of the fields that is not blank. -/
def fieldMap (m : Hash) (newKey : String) (legacyKeys : List String) : Option String :=
  (newKey :: legacyKeys).findSome? fun k => (m.lookup k).filter nonblank

/-- `_probe_float`. -/
def probeFloat (m : Hash) (key : String) : Double :=
  (((m.lookup key).filter nonblank).bind readFloat).getD (.fin 0)

/-- A slot of a hash, with the older names of its fields. -/
def slotFromHash (m : Hash) (slot legacy legacyReconnects : String) : Slot where
  connected := truthyField (fieldMap m (slot ++ "connected") [legacy ++ "connected"])
  clientId := safeInt (fieldMap m (slot ++ "client_id") [legacy ++ "client_id"])
  lastError := errFromField (fieldMap m (slot ++ "last_error") [legacy ++ "last_error"])
  reconnects := safeInt (fieldMap m (slot ++ "reconnects") [legacyReconnects])
  ibProbeAt := probeFloat m (slot ++ "ib_probe_at")
  ibProbeOk := truthyField (m.lookup (slot ++ "ib_probe_ok"))
  ibProbeIntervalSec := probeFloat m (slot ++ "ib_probe_interval_sec")

/-- Whether the hash has a secondary slot; before there was a marker its fields said so. -/
def secondaryOn (m : Hash) : Bool :=
  match fieldMap m "secondary_present" ["account2_present"] with
  | none => (fieldMap m "secondary_connected" ["account2_connected"]).isSome ||
      (fieldMap m "secondary_client_id" ["account2_client_id"]).isSome
  | some present => truthyField (some present)

/-- `operator_health_dict_from_redis_hash`. -/
def fromRedisHash (m : Hash) : Option HealthRead :=
  if m = [] then none
  else some
    { host := slotFromHash m "host_" "operator_" "reconnects"
      serviceAlive := truthyField (some ((fieldMap m "host_alive" ["operator_alive"]).getD "1"))
      msgCount := safeInt (m.lookup "msg_count")
      serviceHeartbeatIntervalSec := probeFloat m "service_heartbeat_interval_sec"
      lastServiceHeartbeatAt := probeFloat m "last_service_heartbeat_at"
      nextServiceHeartbeatInS := probeFloat m "next_service_heartbeat_in_s"
      serviceHeartbeatReconnectInProgress :=
        strip (textOrEmpty (m.lookup "service_heartbeat_reconnect_in_progress"))
      lastMsgTs :=
        (((m.lookup "last_msg_ts").filter fun v => v ≠ "").bind readFloat).getD (.fin 0)
      secondary :=
        if secondaryOn m then some (slotFromHash m "secondary_" "account2_" "account2_reconnects")
        else none }

/-! ## The hash after a refresh -/

/-- A slot whose error is not blank and whose floats are read from their text. -/
structure Slot.Sound (s : Slot) : Prop where
  error_nonblank : ∀ e ∈ s.lastError, strip e ≠ ""
  probeAt : readFloat (reprFloat s.ibProbeAt) = some s.ibProbeAt
  probeInterval : readFloat (reprFloat s.ibProbeIntervalSec) = some s.ibProbeIntervalSec

theorem Slot.Sound.blank : Slot.blank.Sound where
  error_nonblank e he := by cases he
  probeAt := by decide +kernel
  probeInterval := by decide +kernel

theorem keys_toRedisHash (now : Double) (h : OperatorHealth) :
    ((toRedisHash now h).map Prod.fst).Nodup ∧
      ∀ key ∈ (toRedisHash now h).map Prod.fst, key ∉ legacyFields := by
  cases hsec : h.secondarySlot with
  | none =>
    simp only [toRedisHash, hsec, slotFields, serviceFields, secondaryFields, List.map_cons,
      List.map_nil, List.map_append]
    decide +kernel
  | some s =>
    simp only [toRedisHash, hsec, slotFields, serviceFields, secondaryFields, List.map_cons,
      List.map_nil, List.map_append]
    decide +kernel

section Refresh

variable (old : Hash) (now : Double) (h : OperatorHealth)

/-- A written field is there as it was written. -/
theorem lookup_refresh {f : String × String} (hf : f ∈ toRedisHash now h) :
    (refresh old now h).lookup f.1 = some f.2 := by
  obtain ⟨hnodup, hlegacy⟩ := keys_toRedisHash now h
  rw [refresh, pruneLegacy, lookup_hdel, if_neg (hlegacy _ (List.mem_map_of_mem hf)), lookup_hset,
    lookup_of_mem hnodup hf]
  rfl

/-- A field of an older layout is gone. -/
theorem lookup_refresh_legacy {key : String} (hkey : key ∈ legacyFields) :
    (refresh old now h).lookup key = none := by
  rw [refresh, pruneLegacy, lookup_hdel, if_pos hkey]

end Refresh

/-! ## Reading a slot -/

section Slot

variable {m : Hash}

theorem fieldMap_of_lookup {key v : String} (h : m.lookup key = some v) (hv : nonblank v = true)
    (legacyKeys : List String) : fieldMap m key legacyKeys = some v := by
  simp [fieldMap, h, Option.filter, hv]

theorem fieldMap_eq_none {key : String} {legacyKeys : List String}
    (h : (m.lookup key).filter nonblank = none)
    (hlegacy : ∀ k ∈ legacyKeys, m.lookup k = none) : fieldMap m key legacyKeys = none := by
  rw [fieldMap, List.findSome?_eq_none_iff]
  intro k hk
  rcases List.mem_cons.1 hk with rfl | hk
  · exact h
  · rw [hlegacy k hk]
    rfl

theorem nonblank_boolText (b : Bool) : nonblank (boolText b) = true := by
  revert b
  decide +kernel

@[simp] theorem truthyField_boolText (b : Bool) : truthyField (some (boolText b)) = b := by
  revert b
  decide +kernel

theorem nonblank_toString (n : ℤ) : nonblank (toString n) = true := by
  have hne : toString n ≠ "" := ne_empty_of_readFloat (readFloat_toString n)
  rw [nonblank, strip_of_forall (isSpace_toString n)]
  exact decide_eq_true hne

@[simp] theorem safeInt_toString (n : ℤ) : safeInt (some (toString n)) = n := by
  rw [safeInt, Option.filter_some, if_pos (nonblank_toString n), Option.bind_some,
    parseInt_toString, Option.getD_some]

theorem probeFloat_of_lookup {key : String} {x : Double} (h : m.lookup key = some (reprFloat x))
    (hx : readFloat (reprFloat x) = some x) : probeFloat m key = x := by
  have hblank : nonblank (reprFloat x) = true := decide_eq_true (strip_ne_empty_of_readFloat hx)
  rw [probeFloat, h, Option.filter_some, if_pos hblank, Option.bind_some, hx, Option.getD_some]

/-- An error reads back, and without one nothing is read of the older field. -/
theorem errFromField_fieldMap {key : String} {legacyKeys : List String} {e : Option String}
    (h : m.lookup key = some (textOrEmpty e)) (he : ∀ s ∈ e, strip s ≠ "")
    (hlegacy : ∀ k ∈ legacyKeys, m.lookup k = none) :
    errFromField (fieldMap m key legacyKeys) = e := by
  cases e with
  | none =>
    rw [fieldMap_eq_none (by rw [h]; decide +kernel) hlegacy]
    rfl
  | some s =>
    have hs : strip s ≠ "" := he s rfl
    have hne : s ≠ "" := fun heq => hs (heq ▸ strip_empty)
    rw [fieldMap_of_lookup h (decide_eq_true hs)]
    simp [errFromField, textOrEmpty, hne]

/-- A slot whose fields are in the hash, and whose older fields are not, is read as it is. -/
theorem slotFromHash_of_lookup {slot legacy legacyReconnects : String} {s : Slot} (hs : s.Sound)
    (hfields : ∀ f ∈ slotFields slot s, m.lookup f.1 = some f.2)
    (hlegacy : m.lookup (legacy ++ "last_error") = none) :
    slotFromHash m slot legacy legacyReconnects = s := by
  simp only [slotFields, List.forall_mem_cons] at hfields
  obtain ⟨hconnected, hclient, herror, hreconnects, hat, hok, hinterval, -⟩ := hfields
  have herr : errFromField (fieldMap m (slot ++ "last_error") [legacy ++ "last_error"]) =
      s.lastError := errFromField_fieldMap herror hs.error_nonblank (by simpa using hlegacy)
  rw [slotFromHash, herr, fieldMap_of_lookup hconnected (nonblank_boolText _),
    fieldMap_of_lookup hclient (nonblank_toString _),
    fieldMap_of_lookup hreconnects (nonblank_toString _), hok,
    probeFloat_of_lookup hat hs.probeAt, probeFloat_of_lookup hinterval hs.probeInterval]
  simp only [truthyField_boolText, safeInt_toString]

end Slot

/-! ## Health reads back -/

theorem mem_toRedisHash {now : Double} {h : OperatorHealth} {f : String × String}
    (hf : f ∈ slotFields "host_" h.hostSlot ∨ f ∈ serviceFields now h ∨
      f ∈ secondaryFields h.secondarySlot) : f ∈ toRedisHash now h := by
  rw [toRedisHash, List.mem_append, List.mem_append, or_assoc]
  exact hf

/-- **Health reads back.**  Whatever the hash held, after a refresh it is read as the host slot, the
secondary slot and the `service_alive` of the dictionary. -/
theorem fromRedisHash_refresh (old : Hash) (now : Double) (h : OperatorHealth)
    (hhost : h.hostSlot.Sound) (hsecondary : ∀ s ∈ h.secondarySlot, s.Sound) :
    ∃ read, fromRedisHash (refresh old now h) = some read ∧ read.host = h.hostSlot ∧
      read.secondary = h.secondarySlot ∧ read.serviceAlive = h.alive := by
  have hwritten : ∀ f ∈ toRedisHash now h, (refresh old now h).lookup f.1 = some f.2 :=
    fun f hf => lookup_refresh old now h hf
  have hlegacy : ∀ key ∈ legacyFields, (refresh old now h).lookup key = none :=
    fun key hkey => lookup_refresh_legacy old now h hkey
  have halive := hwritten ("host_alive", boolText h.alive)
    (mem_toRedisHash (.inr (.inl List.mem_cons_self)))
  have hne : refresh old now h ≠ [] := by
    intro hempty
    rw [hempty] at halive
    cases halive
  rw [fromRedisHash, if_neg hne]
  refine ⟨_, rfl, ?_, ?_, ?_⟩
  · exact slotFromHash_of_lookup hhost
      (fun f hf => hwritten f (mem_toRedisHash (.inl hf)))
      (hlegacy _ (by decide +kernel))
  · have hfields : ∀ f ∈ secondaryFields h.secondarySlot,
        (refresh old now h).lookup f.1 = some f.2 :=
      fun f hf => hwritten f (mem_toRedisHash (.inr (.inr hf)))
    dsimp only
    cases hsec : h.secondarySlot with
    | none =>
      rw [hsec] at hfields
      have hpresent := hfields ("secondary_present", "0") (by decide +kernel)
      rw [secondaryOn, fieldMap_of_lookup hpresent (by decide +kernel)]
      rfl
    | some s =>
      rw [hsec, secondaryFields, List.forall_mem_cons] at hfields
      rw [secondaryOn, fieldMap_of_lookup hfields.1 (by decide +kernel)]
      exact congrArg some (slotFromHash_of_lookup (hsecondary s hsec) hfields.2
        (hlegacy _ (by decide +kernel)))
  · dsimp only
    rw [fieldMap_of_lookup halive (nonblank_boolText _), Option.getD_some, truthyField_boolText]

/-- A host slot without an error. -/
def quietHost : Slot := ⟨true, -1, none, 2, .fin (3 / 2), true, .fin 30⟩

/-- Health with a host slot and no secondary slot. -/
def quietHealth : OperatorHealth where
  host := some quietHost
  operator := none
  secondary := none
  account2 := none
  serviceAlive := some false
  operatorAlive := none
  updatedAt := none
  lastCmdTs := .fin 0
  cmdCount := 7
  serviceHeartbeatIntervalSec := .fin 5
  lastServiceHeartbeatAt := .fin 0
  nextServiceHeartbeatInS := .fin 0
  serviceHeartbeatReconnectInProgress := none

/-- A hash of the older layout, with errors and a second account. -/
def olderHash : Hash :=
  [("operator_connected", "0"), ("operator_last_error", "timeout"), ("reconnects", "9"),
    ("operator_alive", "1"), ("account2_present", "1"), ("account2_client_id", "4"),
    ("secondary_last_error", "refused")]

theorem sound_quietHost : quietHost.Sound where
  error_nonblank e he := by cases he
  probeAt := by decide +kernel
  probeInterval := by decide +kernel

theorem fromRedisHash_refresh_older :
    ∃ read, fromRedisHash (refresh olderHash (.fin 100) quietHealth) = some read ∧
      read.host = quietHost ∧ read.secondary = none ∧ read.serviceAlive = false :=
  fromRedisHash_refresh olderHash (.fin 100) quietHealth sound_quietHost fun s hs => by cases hs

end IbOperator
