import BifrostTrade.Lib.Binary64
import BifrostTrade.Lib.Calls
import BifrostTrade.Lib.Json
import BifrostTrade.Lib.RedisHash
import BifrostTrade.Lib.Stream

/-!
# The trading daemon's state in Redis

`persistence/redis_daemon_state.py` and the Redis part of `TradingDaemonSink`
(`persistence/postgres/postgres_sink.py`): programs of Redis calls, each of which may fail before
or after it took effect.  The one hash and the one stream are those of the trading daemon, read by
its one consumer group and consumer.
-/

namespace Persistence.Daemon

open Py Calls Streams RedisHash

/-! ## Redis -/

/-- The fields of a control message; those of a trimmed entry are all missing. -/
structure ControlFields where
  command : Option String
  source : Option String
  createdAt : Option ℚ
  deriving DecidableEq

/-- The fields of an entry that is gone from the stream. -/
def ControlFields.missing : ControlFields := ⟨none, none, none⟩

/-- A message as a read of the stream returns it. -/
structure Message where
  id : ℕ
  fields : ControlFields
  deriving DecidableEq

/-- Where a read of the stream starts: `0` or `>`. -/
inductive ReadId where
  | pending
  | new
  deriving DecidableEq

/-- The calls of the Redis client. -/
inductive Call where
  | time
  | ping
  | hgetall
  | hsetExpire (mapping : Hash) (ttlSec : ℕ)
  | xgroupCreate
  | xreadgroup (id : ReadId) (count : ℕ)
  | xack (id : ℕ)
  | xadd (maxlen : ℕ) (fields : ControlFields)

/-- What a call returns; the messages of a stream are one entry of what a read returns. -/
@[reducible] def Reply : Call → Type
  | .time => ℚ
  | .ping => Unit
  | .hgetall => Hash
  | .hsetExpire .. => Unit
  | .xgroupCreate => Unit
  | .xreadgroup .. => List (List Message)
  | .xack .. => ℕ
  | .xadd .. => ℕ

/-- The server: its clock, the state hash and the control stream. -/
structure Redis where
  clock : ℚ
  state : Hash
  control : Stream ControlFields

/-- The effect of a call and its reply.  With `pendingNil` a read of the pending messages that finds
none returns nothing, and otherwise one entry without messages; `trim` is what an `XADD` may
drop. -/
def Redis.execute (pendingNil : Bool) (trim : ℕ) (db : Redis) :
    (c : Call) → Redis × Option (Reply c)
  | .time => (db, some db.clock)
  | .ping => (db, some ())
  | .hgetall => (db, some db.state)
  | .hsetExpire mapping _ => ({ db with state := hset db.state mapping }, some ())
  | .xgroupCreate =>
      match db.control.createGroup with
      | none => (db, none)
      | some control => ({ db with control }, some ())
  | .xreadgroup .pending count =>
      (db, (db.control.readPending count).map fun given =>
        let messages := given.map fun m => Message.mk m.1 (m.2.getD .missing)
        if messages = [] ∧ pendingNil then [] else [messages])
  | .xreadgroup .new count =>
      match db.control.readNew count with
      | none => (db, none)
      | some (control, given) =>
          ({ db with control },
            some (if given = [] then [] else [given.map fun m => Message.mk m.1 m.2]))
  | .xack id => ({ db with control := (db.control.ack id).1 }, some (db.control.ack id).2)
  | .xadd maxlen fields =>
      ({ db with control := db.control.add maxlen trim fields }, some (db.control.lastId + 1))

/-- What happens to one call. -/
structure Choice where
  delivery : Delivery
  trim : ℕ
  deriving DecidableEq

/-- A call that nothing happens to. -/
def Choice.ok : Choice := ⟨.answered, 0⟩

/-- A call under a choice.  The clock is read without Redis. -/
def Redis.answer (pendingNil : Bool) (w : Choice) (db : Redis) (c : Call) :
    Redis × Option (Reply c) :=
  match c with
  | .time => db.execute pendingNil w.trim .time
  | c => w.delivery.outcome db (db.execute pendingNil w.trim c)

/-- What happens at the server: the hash expires, or time passes. -/
inductive ServerEvent where
  | expire
  | delay (d : ℚ)

/-- The server after an event of its own. -/
def Redis.happen (db : Redis) : ServerEvent → Redis
  | .expire => { db with state := [] }
  | .delay d => { db with clock := db.clock + d }

theorem answer_of_notExecuted (pendingNil : Bool) {w : Choice} (hw : w.delivery = .notExecuted)
    (db : Redis) (c : Call) : (db.answer pendingNil w c).1 = db := by
  unfold Redis.answer
  rw [hw]
  cases c <;> rfl

theorem answer_of_executed (pendingNil : Bool) {w : Choice} (hw : w.delivery ≠ .notExecuted)
    (db : Redis) (c : Call) :
    (db.answer pendingNil w c).1 = (db.execute pendingNil w.trim c).1 := by
  unfold Redis.answer
  cases hd : w.delivery with
  | answered => cases c <;> rfl
  | replyLost => cases c <;> rfl
  | notExecuted => exact absurd hd hw

/-- A reply is that of the executed call. -/
theorem reply_of_answer {pendingNil : Bool} {w : Choice} {db : Redis} {c : Call} {r : Reply c}
    (h : (db.answer pendingNil w c).2 = some r) :
    (db.execute pendingNil w.trim c).2 = some r := by
  unfold Redis.answer at h
  cases hd : w.delivery <;> rw [hd] at h <;> cases c <;> first | exact h | cases h

/-! ## The state hash -/

/-- A program of these calls. -/
abbrev Prog := Program Call Reply

/-- One call of Redis. -/
abbrev ask (c : Call) : Prog (Option (Reply c)) := Program.ask c

/-- A value of a state field. -/
inductive StateValue where
  | none
  | bool (b : Bool)
  | int (n : ℤ)
  | float (x : Double)
  | text (s : String)
  | list (texts : List String)
  deriving DecidableEq

/-- The seconds that the state hash lives after a write. -/
def stateTtlSec : ℕ := 180

/-- The length that the control stream is trimmed to. -/
def tradingControlMaxlen : ℕ := 500

/-- `_to_redis_str`. -/
def toRedisStr : StateValue → String
  | .none => ""
  | .bool b => if b then "1" else "0"
  | .int n => toString n
  | .float x => reprFloat x
  | .text s => s
  | .list texts => Json.dumpsTexts texts

/-- `_encode_mapping`. -/
def encodeMapping (fields : List (String × StateValue)) : Hash :=
  (fields.filter fun f => f.2 ≠ .none ∨ f.1 ∈ ["subscribed_tickers", "last_control_message"]).map
    fun f => (f.1, toRedisStr f.2)

/-- The fields that are read back as truth values. -/
def boolFields : List String :=
  ["hedge_running", "ib_connected", "redis_quotes_connected", "mock_hedging", "suspended", "alive"]

/-- The fields that are read back as integers. -/
def intFields : List String :=
  ["ib_client_id", "heartbeat_interval_sec", "stock_position", "option_legs_count",
    "daily_hedge_count", "last_sync_version", "sync_failures", "accounts_synced",
    "positions_synced", "executions_synced", "open_orders_synced", "stream_lag"]

/-- The fields that are read back as floats. -/
def floatFields : List String :=
  ["last_ts", "last_ok_ts", "graceful_shutdown_at", "spot", "bid", "ask", "net_delta", "daily_pnl",
    "data_lag_ms", "ts", "updated_at"]

/-- The fields whose empty text is read back as `None`. -/
def emptyTextFields : List String :=
  ["last_control_message", "subscribed_tickers", "symbol", "config_summary", "daemon_state",
    "trading_state"]

/-- A decoded field; a list that holds anything but texts is not modelled. -/
inductive Decoded where
  | none
  | bool (b : Bool)
  | int (n : ℤ)
  | float (x : Double)
  | text (s : String)
  | list (texts : List String)
  deriving DecidableEq

/-- `_decode_value`; nothing where it raises, which `int` of an infinite number does. -/
def decodeValue (key raw : String) : Option Decoded :=
  if raw = "" ∧ key ∉ emptyTextFields then some .none
  else if key = "subscribed_tickers" then some (.list ((Json.loadsTexts raw).getD []))
  else if key ∈ boolFields then some (.bool (raw ∈ ["1", "true", "True", "yes"]))
  else if key ∈ intFields then
    match readFloat raw with
    | none => some .none
    | some x => if x.isInf then none else some (x.toInt.elim .none .int)
  else if key ∈ floatFields then some ((readFloat raw).elim .none .float)
  else some (.text raw)

/-- `_decode_hash`. -/
def decodeHash (raw : Hash) : Option (List (String × Decoded)) :=
  raw.mapM fun f => (decodeValue f.1 f.2).map fun v => (f.1, v)

/-- Decoding keeps the fields. -/
theorem lookup_decodeHash {raw : Hash} {state : List (String × Decoded)}
    (h : decodeHash raw = some state) (key : String) :
    state.lookup key = (raw.lookup key).bind (decodeValue key) ∧
      (state.lookup key = none → raw.lookup key = none) := by
  induction raw generalizing state with
  | nil =>
    obtain rfl : [] = state := Option.some.inj h
    exact ⟨rfl, fun _ => rfl⟩
  | cons f raw ih =>
    rw [decodeHash, List.mapM_cons] at h
    simp only [Option.bind_eq_bind, Option.pure_def, Option.bind_eq_some_iff,
      Option.map_eq_some_iff, Option.some.injEq] at h
    obtain ⟨_, ⟨v, hv, rfl⟩, state', hstate, rfl⟩ := h
    rw [List.lookup_cons, List.lookup_cons]
    by_cases hkey : key = f.1
    · rw [hkey, beq_self_eq_true]
      exact ⟨hv.symm, fun h => by cases h⟩
    · rw [beq_false_of_ne hkey]
      exact ih hstate

/-- A hash whose entries are all decoded is decoded. -/
theorem exists_decodeHash {raw : Hash} (h : ∀ f ∈ raw, decodeValue f.1 f.2 ≠ none) :
    ∃ state, decodeHash raw = some state := by
  induction raw with
  | nil => exact ⟨[], rfl⟩
  | cons f raw ih =>
    obtain ⟨v, hv⟩ := Option.ne_none_iff_exists'.1 (h f List.mem_cons_self)
    obtain ⟨state, hstate⟩ := ih fun g hg => h g (List.mem_cons_of_mem f hg)
    rw [decodeHash] at hstate
    exact ⟨(f.1, v) :: state, by simp [decodeHash, List.mapM_cons, hv, hstate]⟩

/-- `bool(value)`. -/
def Decoded.truthy : Decoded → Bool
  | .none => false
  | .bool b => b
  | .int n => n ≠ 0
  | .float x => x ≠ .fin 0
  | .text s => s ≠ ""
  | .list texts => texts ≠ []

/-- `write_trading_daemon_state`. -/
def writeTradingDaemonState (fields : List (String × StateValue)) : Prog Bool :=
  let mapping := encodeMapping fields
  if mapping = [] then .ret false
  else do
    let r ← ask (.hsetExpire mapping stateTtlSec)
    return r.isSome

/-- `read_trading_daemon_state`. -/
def readTradingDaemonState : Prog (Option (List (String × Decoded))) := do
  let raw ← ask .hgetall
  match raw with
  | none => return none
  | some raw => return if raw = ([] : Hash) then none else decodeHash raw

/-- `set_trading_run_status`; an interval that `int` does not take raises before the write. -/
def setTradingRunStatus (suspended : Option Bool) (heartbeatIntervalSec : Option Double) :
    Prog Bool :=
  let suspendedField := (suspended.map fun b => ("suspended", StateValue.bool b)).toList
  match heartbeatIntervalSec with
  | none => writeTradingDaemonState suspendedField
  | some x =>
      match x.toInt with
      | none => .ret false
      | some n => writeTradingDaemonState
          (suspendedField ++ [("heartbeat_interval_sec", .int (max 5 (min 120 n)))])

/-! ## The control stream -/

/-- `publish_control` to the trading stream. -/
def publishControl (command source : String) (maxlen : ℕ) : Prog Bool :=
  let cmd := strip command
  if cmd = "" then .ret false
  else do
    let now ← ask .time
    let r ← ask (.xadd maxlen ⟨some cmd, some source, now⟩)
    return r.isSome

/-- `publish_trading_control`. -/
def publishTradingControl (command source : String) : Prog Bool :=
  publishControl command source tradingControlMaxlen

/-- `ensure_control_group`: every error is swallowed. -/
def ensureControlGroup : Prog Unit := do
  let _ ← ask .xgroupCreate
  return ()

/-- The loop over the messages of a read: each is acknowledged, and the first that has a command
ends it.  A failed acknowledgement is swallowed. -/
def takeCommand : List Message → Prog (Option String)
  | [] => .ret none
  | m :: rest => do
      let cmd := strip (textOrEmpty m.fields.command)
      let _ ← ask (.xack m.id)
      if cmd ≠ "" then return some cmd else takeCommand rest

/-- `consume_trading_control`: `consume_control` of the trading stream without blocking. -/
def consumeTradingControl (count : ℕ) : Prog (Option String) := do
  ensureControlGroup
  let rows ← ask (.xreadgroup .pending count)
  match rows with
  | none => return none
  | some rows =>
      if rows = ([] : List (List Message)) then
        let rows ← ask (.xreadgroup .new count)
        match rows with
        | none => return none
        | some rows => takeCommand (List.flatten rows)
      else takeCommand (List.flatten rows)

/-! ## The sink -/

/-- Whether a client has a Redis URL, and a connection from before. -/
structure Sink where
  configured : Bool
  connected : Bool

/-- `connect_daemon_state_redis`. -/
def connectDaemonStateRedis (configured : Bool) : Prog Bool :=
  if configured then do
    let r ← ask .ping
    return r.isSome
  else .ret false

/-- `_connect_redis`: suspended until an explicit resume. -/
def connectRedis (sink : Sink) : Prog Bool := do
  let connected ← connectDaemonStateRedis sink.configured
  if connected then
    let state ← readTradingDaemonState
    if "suspended" ∈ (state.getD []).map Prod.fst then return true
    else
      let _ ← setTradingRunStatus (some true) (some (.fin 10))
      return true
  else return false

/-- `_ensure_redis`. -/
def ensureRedis (sink : Sink) : Prog Bool := do
  let connected ← (if sink.connected then .ret true else connectRedis sink : Prog Bool)
  if connected then
    let r ← ask .ping
    if r.isSome then return true else connectRedis sink
  else return false

/-- The commands that a poll accepts. -/
def controlCommands : List String :=
  ["stop", "flatten", "retry_ib", "release_ib", "refresh_accounts", "refresh_replay",
    "refresh_ticker_subscriptions", "release_ticker_subscriptions", "init_ticker_subscriptions"]

/-- The age from which a command is ignored, in seconds. -/
def controlCmdMaxAgeSec : ℚ := 60

/-- The command a text stands for; one that is not known is a stop. -/
def normalizeCommand (text : String) : String :=
  let cmd := lower (strip text)
  if cmd ∈ controlCommands then cmd else "stop"

/-- `poll_and_consume_control`. -/
def pollAndConsumeControl (sink : Sink) (consumeOnly : Option (List String)) :
    Prog (Option String) := do
  let connected ← ensureRedis sink
  if connected then
    let cmd ← consumeTradingControl 1
    match cmd with
    | none => return none
    | some text =>
        let cmd := normalizeCommand text
        if consumeOnly.any fun wanted => cmd ∉ wanted then
          let _ ← publishTradingControl cmd "requeue"
          return none
        else return some cmd
  else return none

/-- The arguments of a heartbeat that are written. -/
structure Heartbeat where
  hedgeRunning : Bool
  ibConnected : Bool
  ibClientId : Option ℤ
  heartbeatIntervalSec : Option Double
  redisQuotesConnected : Bool
  mockHedging : Bool

/-- The time as a field value. -/
def timeValue (now : Option ℚ) : StateValue := now.elim .none fun t => .float (.fin t)

/-- The fields of a heartbeat. -/
def Heartbeat.fields (h : Heartbeat) (now : Option ℚ) (iv : StateValue) :
    List (String × StateValue) :=
  [("last_ts", timeValue now), ("hedge_running", .bool h.hedgeRunning),
    ("ib_connected", .bool h.ibConnected), ("ib_client_id", h.ibClientId.elim (.text "") .int),
    ("graceful_shutdown_at", .text ""), ("heartbeat_interval_sec", iv),
    ("redis_quotes_connected", .bool h.redisQuotesConnected),
    ("mock_hedging", .bool h.mockHedging)]

/-- `write_daemon_heartbeat`; an interval that `int` does not take raises before the write. -/
def writeDaemonHeartbeat (sink : Sink) (h : Heartbeat) : Prog Bool := do
  let connected ← ensureRedis sink
  if connected then
    match h.heartbeatIntervalSec.map Double.toInt with
    | some none => return false
    | iv =>
        let now ← ask .time
        writeTradingDaemonState (h.fields now (iv.join.elim .none .int))
  else return false

/-- A write of some fields once Redis is there. -/
def writeFields (sink : Sink) (fields : List (String × StateValue)) : Prog Bool := do
  let connected ← ensureRedis sink
  if connected then writeTradingDaemonState fields else return false

/-- `write_daemon_control_message`. -/
def writeDaemonControlMessage (sink : Sink) (message : Option String) : Prog Bool :=
  writeFields sink [("last_control_message", .text (textOrEmpty message))]

/-- `write_daemon_subscribed_tickers`. -/
def writeDaemonSubscribedTickers (sink : Sink) (symbols : List String) : Prog Bool :=
  writeFields sink [("subscribed_tickers", .list symbols)]

/-- The fields of a snapshot that are written to the hash. -/
def snapshotKeys : List String :=
  ["daemon_state", "trading_state", "symbol", "spot", "bid", "ask", "net_delta", "stock_position",
    "option_legs_count", "daily_hedge_count", "daily_pnl", "data_lag_ms", "config_summary", "ts"]

/-- The part of `write_snapshot` that goes to Redis. -/
def writeSnapshot (sink : Sink) (snapshot : String → StateValue) : Prog Bool :=
  writeFields sink (snapshotKeys.map fun k => (k, snapshot k))

/-- `write_daemon_graceful_shutdown`. -/
def writeDaemonGracefulShutdown (sink : Sink) : Prog Bool := do
  let connected ← ensureRedis sink
  if connected then
    let shutdownAt ← ask .time
    let lastTs ← ask .time
    writeTradingDaemonState
      [("graceful_shutdown_at", timeValue shutdownAt), ("last_ts", timeValue lastTs),
        ("ib_client_id", .text ""), ("hedge_running", .bool false)]
  else return false

/-- `poll_run_status`: suspended, and the heartbeat interval. -/
def pollRunStatus (sink : Sink) : Prog (Bool × Option ℚ) := do
  let connected ← ensureRedis sink
  if connected then
    let state ← readTradingDaemonState
    match state with
    | none => return (true, none)
    | some state =>
        let suspended := ((state.lookup "suspended").map Decoded.truthy).getD true
        let interval := match state.lookup "heartbeat_interval_sec" with
          | some (.int n) => some (n : ℚ)
          | _ => none
        return (suspended, interval)
  else return (true, none)

/-! ## The API's side -/

/-- `write_control_command`. -/
def writeControlCommand (configured : Bool) (command : String) : Prog Bool := do
  let connected ← connectDaemonStateRedis configured
  if connected then publishTradingControl command "api" else return false

/-- `write_run_status`, and `set_trading_run_status` with a client that is there. -/
def writeRunStatus (configured : Bool) (suspended : Option Bool)
    (heartbeatIntervalSec : Option Double) : Prog Bool := do
  let connected ← connectDaemonStateRedis configured
  if connected then setTradingRunStatus suspended heartbeatIntervalSec else return false

/-! ## Operations -/

/-- What a sink or a writer of the API does. -/
inductive Operation where
  | pollControl (sink : Sink) (consumeOnly : Option (List String))
  | writeControlCommand (configured : Bool) (command : String)
  | writeRunStatus (configured : Bool) (suspended : Option Bool) (interval : Option Double)
  | connect (sink : Sink)
  | heartbeat (sink : Sink) (h : Heartbeat)
  | controlMessage (sink : Sink) (message : Option String)
  | subscribedTickers (sink : Sink) (symbols : List String)
  | snapshot (sink : Sink) (values : String → StateValue)
  | gracefulShutdown (sink : Sink)
  | pollRunStatus (sink : Sink)

/-- What an operation returns. -/
inductive Answer where
  | done (ok : Bool)
  | command (c : Option String)
  | runStatus (suspended : Bool) (interval : Option ℚ)
  deriving DecidableEq

/-- The program that an operation runs. -/
def Operation.program : Operation → Prog Answer
  | pollControl sink consumeOnly => .command <$> pollAndConsumeControl sink consumeOnly
  | writeControlCommand configured command =>
      .done <$> Daemon.writeControlCommand configured command
  | writeRunStatus configured suspended interval =>
      .done <$> Daemon.writeRunStatus configured suspended interval
  | connect sink => .done <$> connectRedis sink
  | heartbeat sink h => .done <$> writeDaemonHeartbeat sink h
  | controlMessage sink message => .done <$> writeDaemonControlMessage sink message
  | subscribedTickers sink symbols => .done <$> writeDaemonSubscribedTickers sink symbols
  | snapshot sink values => .done <$> writeSnapshot sink values
  | gracefulShutdown sink => .done <$> writeDaemonGracefulShutdown sink
  | pollRunStatus sink => (fun a => .runStatus a.1 a.2) <$> Daemon.pollRunStatus sink

/-! ## The calls of the operations -/

/-- `set_trading_run_status(suspended=False)`. -/
def IsResume (op : Operation) : Prop := ∃ configured interval,
  op = .writeRunStatus configured (some false) interval

/-- A call that leaves the control stream alone and, when it writes, leaves `suspended` alone,
suspends, or resumes in a resume. -/
def StateCall (op : Operation) : Call → Prop
  | .time => True
  | .ping => True
  | .hgetall => True
  | .hsetExpire mapping _ =>
      mapping.lookup "suspended" = none ∨ mapping.lookup "suspended" = some "1" ∨
        mapping.lookup "suspended" = some "0" ∧ IsResume op
  | _ => False

/-- A call of the control stream. -/
def Call.OfStream : Call → Prop
  | .xgroupCreate => True
  | .xreadgroup .. => True
  | .xack _ => True
  | .xadd .. => True
  | _ => False

section Uses

variable {op : Operation}

theorem encodeMapping_keys (fields : List (String × StateValue)) :
    (encodeMapping fields).map Prod.fst ⊆ fields.map Prod.fst := by
  intro key hkey
  simp only [encodeMapping, List.map_map, List.mem_map, List.mem_filter] at hkey ⊢
  obtain ⟨f, ⟨hf, -⟩, rfl⟩ := hkey
  exact ⟨f, hf, rfl⟩

theorem uses_write {fields : List (String × StateValue)}
    (h : StateCall op (.hsetExpire (encodeMapping fields) stateTtlSec)) :
    Uses (StateCall op) (writeTradingDaemonState fields) :=
  Uses.ite (Uses.ret false) (Uses.ask h fun _ => Uses.pure _)

/-- Fields without `suspended` are written without it. -/
theorem uses_writeTradingDaemonState {fields : List (String × StateValue)}
    (h : "suspended" ∉ fields.map Prod.fst) :
    Uses (StateCall op) (writeTradingDaemonState fields) :=
  uses_write (.inl (lookup_eq_none_iff.2 fun hmem => h (encodeMapping_keys fields hmem)))

/-- The writes of the run status suspend, except those of a resume. -/
theorem uses_setTradingRunStatus {suspended : Option Bool} (interval : Option Double)
    (h : suspended = some false → IsResume op) :
    Uses (StateCall op) (setTradingRunStatus suspended interval) := by
  have hwrite : ∀ rest : List (String × StateValue), "suspended" ∉ rest.map Prod.fst →
      Uses (StateCall op) (writeTradingDaemonState
        ((suspended.map fun b => ("suspended", StateValue.bool b)).toList ++ rest)) := by
    intro rest hrest
    cases suspended with
    | none => exact uses_writeTradingDaemonState hrest
    | some b =>
      refine uses_write (Or.inr ?_)
      cases b with
      | true => exact .inl rfl
      | false => exact .inr ⟨rfl, h rfl⟩
  cases interval with
  | none => simpa [setTradingRunStatus] using hwrite [] (by simp)
  | some x =>
    cases hx : x.toInt with
    | none =>
      simp only [setTradingRunStatus, hx]
      exact Uses.ret false
    | some n =>
      simp only [setTradingRunStatus, hx]
      exact hwrite _ (by simp)

theorem uses_readTradingDaemonState : Uses (StateCall op) readTradingDaemonState := by
  refine Uses.ask trivial fun raw => ?_
  cases raw <;> exact Uses.pure _

theorem uses_connectDaemonStateRedis (configured : Bool) :
    Uses (StateCall op) (connectDaemonStateRedis configured) :=
  Uses.ite (Uses.ask trivial fun _ => Uses.pure _) (Uses.ret false)

theorem uses_connectRedis (sink : Sink) : Uses (StateCall op) (connectRedis sink) := by
  refine (uses_connectDaemonStateRedis _).bind fun connected => Uses.ite ?_ (Uses.pure false)
  refine uses_readTradingDaemonState.bind fun state => Uses.ite (Uses.pure true) ?_
  exact (uses_setTradingRunStatus _ fun h => by cases h).bind fun _ => Uses.pure true

theorem uses_ensureRedis (sink : Sink) : Uses (StateCall op) (ensureRedis sink) := by
  refine (Uses.ite (Uses.ret true) (uses_connectRedis sink)).bind fun connected => ?_
  refine Uses.ite (Uses.ask trivial fun r => ?_) (Uses.pure false)
  exact Uses.ite (Uses.pure true) (uses_connectRedis sink)

theorem uses_writeFields (sink : Sink) {fields : List (String × StateValue)}
    (h : "suspended" ∉ fields.map Prod.fst) : Uses (StateCall op) (writeFields sink fields) :=
  (uses_ensureRedis sink).bind fun _ =>
    Uses.ite (uses_writeTradingDaemonState h) (Uses.pure false)

theorem uses_writeSnapshot (sink : Sink) (values : String → StateValue) :
    Uses (StateCall op) (writeSnapshot sink values) := by
  apply uses_writeFields
  have hkeys : (snapshotKeys.map fun k => (k, values k)).map Prod.fst = snapshotKeys := by
    rw [List.map_map]
    exact List.map_id _
  rw [hkeys]
  decide

theorem uses_writeDaemonHeartbeat (sink : Sink) (h : Heartbeat) :
    Uses (StateCall op) (writeDaemonHeartbeat sink h) := by
  refine (uses_ensureRedis sink).bind fun _ => Uses.ite ?_ (Uses.pure false)
  split
  · exact Uses.pure false
  · exact Uses.ask trivial fun now => uses_writeTradingDaemonState (by simp [Heartbeat.fields])

theorem uses_writeDaemonGracefulShutdown (sink : Sink) :
    Uses (StateCall op) (writeDaemonGracefulShutdown sink) := by
  refine (uses_ensureRedis sink).bind fun _ => Uses.ite ?_ (Uses.pure false)
  refine Uses.ask trivial fun _ => Uses.ask trivial fun _ => ?_
  exact uses_writeTradingDaemonState (by simp)

theorem uses_writeRunStatus (configured : Bool) (suspended : Option Bool)
    (interval : Option Double) :
    Uses (StateCall (.writeRunStatus configured suspended interval))
      (writeRunStatus configured suspended interval) := by
  refine (uses_connectDaemonStateRedis _).bind fun _ => Uses.ite ?_ (Uses.pure _)
  exact uses_setTradingRunStatus _ fun h => h ▸ ⟨configured, interval, rfl⟩

theorem uses_pollRunStatus (sink : Sink) : Uses (StateCall op) (pollRunStatus sink) := by
  refine (uses_ensureRedis sink).bind fun _ => Uses.ite ?_ (Uses.pure _)
  refine uses_readTradingDaemonState.bind fun state => ?_
  cases state <;> exact Uses.pure _

end Uses

end Persistence.Daemon
