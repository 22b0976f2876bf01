import BifrostTrade.Persistence.DaemonRedis

/-!
# A suspended daemon stays suspended

Sinks and writers of the API interleaved call by call, with the history of the state hash beside
it.  No operation but an explicit resume writes a `suspended` that is not true (`follows_program`),
so the hash says the daemon runs only when a resume is the last that was said of it
(`SaysSo`), and `poll_run_status` only answers what the hash says (`runs_only_resumed`).
-/

namespace Persistence.Daemon.RunStatus

open Py Calls Streams RedisHash

/-! ## The history of the hash -/

/-- What happened to the hash: it expired, or an operation wrote fields. -/
inductive HashEvent where
  | expired
  | wrote (op : Operation) (mapping : Hash)

/-- A write of `suspended=True`. -/
def HashEvent.Suspends : HashEvent → Prop
  | expired => False
  | wrote _ mapping => mapping.lookup "suspended" = some "1"

/-- A resume was executed since the hash last expired, and no write of `suspended=True` after it. -/
def Resumed (history : List HashEvent) : Prop :=
  ∃ pre op mapping post, history = pre ++ .wrote op mapping :: post ∧ IsResume op ∧
    mapping.lookup "suspended" = some "0" ∧ ∀ e ∈ post, e ≠ .expired ∧ ¬ e.Suspends

/-- Redis and the history of its state hash. -/
structure World where
  redis : Redis
  history : List HashEvent

/-- The operation that makes the calls, and what its last call read: the hash, with the history at
that time. -/
structure Known where
  operation : Operation
  read : Option (List HashEvent × Option Hash)

/-- What a call adds to the history. -/
def historyOf (op : Operation) (w : Choice) : Call → List HashEvent
  | .hsetExpire mapping _ => if w.delivery = .notExecuted then [] else [.wrote op mapping]
  | _ => []

/-- What a call reads of the hash. -/
def readOf (history : List HashEvent) :
    (c : Call) → Option (Reply c) → Option (List HashEvent × Option Hash)
  | .hgetall, r => some (history, r)
  | _, _ => none

/-- One call as the server and its caller see it, with what it leaves in the history. -/
def serve (pendingNil : Bool) (k : Known) (w : Choice) (s : World) (c : Call) :
    World × Known × Option (Reply c) :=
  let r := s.redis.answer pendingNil w c
  (⟨r.1, s.history ++ historyOf k.operation w c⟩, ⟨k.operation, readOf s.history c r.2⟩, r.2)

/-- The world after an event of the server; an expiry is in the history. -/
def happen (s : World) (e : ServerEvent) : World :=
  ⟨s.redis.happen e, s.history ++ if e matches .expire then [.expired] else []⟩

/-- Operations of any number of sinks and writers. -/
def system (pendingNil : Bool) :
    System Call Reply Known World Answer Choice ServerEvent Operation where
  program := Operation.program
  init op := ⟨op, none⟩
  serve := serve pendingNil
  env := happen

/-! ## What the operations know -/

/-- The hash says the daemon runs only after a resume. -/
def SaysSo (history : List HashEvent) (raw : Hash) : Prop :=
  ∀ v, raw.lookup "suspended" = some v → v = "1" ∨ v = "0" ∧ Resumed history

/-- A call leaves `suspended` alone, suspends, or is that of a resume; the operation stays, and a
hash that is read says so. -/
def protocol : Protocol Call Reply Known where
  allowed k c := StateCall k.operation c ∨ c.OfStream
  reply k c k' r := k'.operation = k.operation ∧
    ∃ history, k'.read = readOf history c r ∧
      ∀ raw, readOf history c r = some (history, some raw) → SaysSo history raw

/-- An answer that the daemon runs is what the last call read. -/
def answered (k : Known) (a : Answer) : Prop :=
  ∀ interval, a = .runStatus false interval → ∃ history raw,
    k.read = some (history, some raw) ∧ raw.lookup "suspended" = some "0" ∧ Resumed history

/-! ## The hash -/

theorem Resumed.append {history new : List HashEvent} (h : Resumed history)
    (hnew : ∀ e ∈ new, e ≠ .expired ∧ ¬ e.Suspends) : Resumed (history ++ new) := by
  obtain ⟨pre, op, mapping, post, rfl, hop, hlookup, hpost⟩ := h
  refine ⟨pre, op, mapping, post ++ new, by simp, hop, hlookup, fun e he => ?_⟩
  exact (List.mem_append.1 he).elim (hpost e) (hnew e)

/-- A write keeps that the hash says so. -/
theorem SaysSo.hset {history : List HashEvent} {state mapping : Hash} {k : Known} {ttl : ℕ}
    (h : SaysSo history state) (hallowed : StateCall k.operation (.hsetExpire mapping ttl)) :
    SaysSo (history ++ [.wrote k.operation mapping]) (RedisHash.hset state mapping) := by
  intro v hv
  rw [lookup_hset] at hv
  rcases hallowed with hnone | hone | ⟨hzero, hresume⟩
  · rw [hnone, Option.none_or] at hv
    refine (h v hv).imp_right fun hv => ⟨hv.1, hv.2.append ?_⟩
    intro e he
    obtain rfl := List.mem_singleton.1 he
    exact ⟨HashEvent.noConfusion, by simp [HashEvent.Suspends, hnone]⟩
  · rw [hone, Option.some_or] at hv
    exact .inl (Option.some.inj hv).symm
  · rw [hzero, Option.some_or] at hv
    exact .inr ⟨(Option.some.inj hv).symm, history, k.operation, mapping, [], rfl, hresume, hzero,
      by simp⟩

/-- Only a write changes the hash. -/
theorem state_execute (pendingNil : Bool) (trim : ℕ) (db : Redis) {c : Call}
    (hne : ∀ mapping ttl, c ≠ .hsetExpire mapping ttl) :
    (db.execute pendingNil trim c).1.state = db.state := by
  cases c with
  | hsetExpire mapping ttl => exact absurd rfl (hne mapping ttl)
  | xgroupCreate =>
    simp only [Redis.execute]
    split <;> rfl
  | xreadgroup id count =>
    cases id with
    | pending => rfl
    | new =>
      simp only [Redis.execute]
      split <;> rfl
  | _ => rfl

/-- Every call keeps that the hash says so. -/
theorem SaysSo.serve {pendingNil : Bool} {k : Known} {s : World}
    (h : SaysSo s.history s.redis.state) (w : Choice) {c : Call}
    (hallowed : StateCall k.operation c ∨ c.OfStream) :
    SaysSo (serve pendingNil k w s c).1.history (serve pendingNil k w s c).1.redis.state := by
  by_cases hw : w.delivery = .notExecuted
  · have hhistory : historyOf k.operation w c = [] := by
      cases c <;> simp [historyOf, hw]
    simpa [RunStatus.serve, answer_of_notExecuted _ hw, hhistory] using h
  · have hstate := answer_of_executed pendingNil hw s.redis c
    cases c with
    | hsetExpire mapping ttl =>
      simp only [RunStatus.serve, hstate, historyOf, if_neg hw]
      exact h.hset (hallowed.resolve_right fun hstream => hstream)
    | _ =>
      simp only [RunStatus.serve, hstate, historyOf, List.append_nil]
      rw [state_execute]
      · exact h
      · exact fun _ _ => Call.noConfusion

theorem readOf_serve {pendingNil : Bool} {k : Known} {s : World}
    (h : SaysSo s.history s.redis.state) (w : Choice) (c : Call) {history : List HashEvent}
    {raw : Hash} (hread : readOf s.history c (serve pendingNil k w s c).2.2 =
      some (history, some raw)) : history = s.history ∧ SaysSo history raw := by
  cases c with
  | hgetall =>
    obtain ⟨rfl, hr⟩ := Prod.mk.inj (Option.some.inj hread)
    have hraw := reply_of_answer hr
    obtain rfl : s.redis.state = raw := Option.some.inj hraw
    exact ⟨rfl, h⟩
  | _ => cases hread

/-! ## What the operations answer -/

/-- A hash that says so is decoded as running only when it says so. -/
theorem eq_zero_of_decoded {history : List HashEvent} {raw : Hash}
    {state : List (String × Decoded)} (hsound : SaysSo history raw)
    (hdecode : decodeHash raw = some state)
    (hrun : ((state.lookup "suspended").map Decoded.truthy).getD true = false) :
    raw.lookup "suspended" = some "0" ∧ Resumed history := by
  obtain ⟨hlookup, hnone⟩ := lookup_decodeHash hdecode "suspended"
  cases hraw : raw.lookup "suspended" with
  | none =>
    rw [hlookup, hraw] at hrun
    cases hrun
  | some v =>
    rcases hsound v hraw with rfl | ⟨rfl, hresumed⟩
    · rw [hlookup, hraw] at hrun
      have htrue : ((decodeValue "suspended" "1").map Decoded.truthy).getD true = true := by decide
      exact absurd (htrue.symm.trans hrun) (by decide)
    · exact ⟨rfl, hresumed⟩

/-- A state that is read is the hash of the last call, and says so. -/
theorem follows_read (k : Known) :
    Follows protocol (fun k' state => ∀ st, state = some st → ∃ history raw,
      k'.read = some (history, some raw) ∧ SaysSo history raw ∧ decodeHash raw = some st) k
      readTradingDaemonState := by
  refine ⟨.inl trivial, fun k' r hr => ?_⟩
  obtain ⟨-, history, hread, hsound⟩ := hr
  cases r with
  | none => exact fun st h => by cases h
  | some raw =>
    intro st h
    by_cases hnil : raw = ([] : Hash)
    · rw [if_pos hnil] at h
      cases h
    · rw [if_neg hnil] at h
      exact ⟨history, raw, hread, hsound raw rfl, h⟩

/-- Calls that the operation may make keep to the protocol. -/
theorem follows_of_uses {α : Type} {op : Operation} {p : Prog α}
    (hp : Uses (fun c => StateCall op c ∨ c.OfStream) p) {k : Known} (hk : k.operation = op) :
    Follows protocol (fun k' _ => k'.operation = op) k p := by
  refine hp.follows (fun k c hk hc => ?_) hk
  subst hk
  exact ⟨hc, fun k' r hr => hr.1⟩

theorem uses_publishTradingControl {op : Operation} (command source : String) :
    Uses (fun c => StateCall op c ∨ c.OfStream) (publishTradingControl command source) := by
  refine Uses.ite (Uses.ret false) (Uses.ask (.inl trivial) fun now => ?_)
  exact Uses.ask (.inr trivial) fun _ => Uses.pure _

theorem uses_takeCommand {op : Operation} (messages : List Message) :
    Uses (fun c => StateCall op c ∨ c.OfStream) (takeCommand messages) := by
  induction messages with
  | nil => exact Uses.ret none
  | cons m rest ih => exact Uses.ask (.inr trivial) fun _ => Uses.ite (Uses.pure _) ih

theorem uses_consumeTradingControl {op : Operation} (count : ℕ) :
    Uses (fun c => StateCall op c ∨ c.OfStream) (consumeTradingControl count) := by
  have hgroup : Uses (fun c => StateCall op c ∨ c.OfStream) ensureControlGroup :=
    Uses.ask (.inr trivial) fun _ => Uses.pure ()
  refine hgroup.bind fun _ => Uses.ask (.inr trivial) fun rows => ?_
  cases rows with
  | none => exact Uses.pure none
  | some rows =>
    refine Uses.ite (Uses.ask (.inr trivial) fun rows => ?_) (uses_takeCommand _)
    cases rows with
    | none => exact Uses.pure none
    | some rows => exact uses_takeCommand _

theorem uses_pollAndConsumeControl {op : Operation} (sink : Sink)
    (consumeOnly : Option (List String)) :
    Uses (fun c => StateCall op c ∨ c.OfStream) (pollAndConsumeControl sink consumeOnly) := by
  refine ((uses_ensureRedis sink).imp fun _ => .inl).bind fun _ => Uses.ite ?_ (Uses.pure none)
  refine (uses_consumeTradingControl 1).bind fun cmd => ?_
  cases cmd with
  | none => exact Uses.pure none
  | some text =>
    dsimp only
    generalize normalizeCommand text = cmd
    exact Uses.ite ((uses_publishTradingControl _ _).bind fun _ => Uses.pure none) (Uses.pure _)

theorem uses_writeControlCommand {op : Operation} (configured : Bool) (command : String) :
    Uses (fun c => StateCall op c ∨ c.OfStream) (writeControlCommand configured command) := by
  refine ((uses_connectDaemonStateRedis _).imp fun _ => .inl).bind fun _ => ?_
  exact Uses.ite (uses_publishTradingControl _ _) (Uses.pure _)

/-- An operation whose answer is no run status. -/
theorem follows_map {α : Type} {op : Operation} {p : Prog α}
    (hp : Uses (fun c => StateCall op c ∨ c.OfStream) p) {g : α → Answer}
    (hg : ∀ a interval, g a ≠ .runStatus false interval) :
    Follows protocol answered ⟨op, none⟩ (g <$> p) :=
  (follows_of_uses hp rfl).bind fun _ a _ interval h => absurd h (hg a interval)

theorem follows_pollRunStatus (sink : Sink) :
    Follows protocol (fun k a => answered k (.runStatus a.1 a.2))
      ⟨.pollRunStatus sink, none⟩ (pollRunStatus sink) := by
  have hsuspended : ∀ k : Known, answered k (.runStatus true none) :=
    fun k interval h => by cases h
  have hensure : Uses (fun c => StateCall (.pollRunStatus sink) c ∨ c.OfStream)
      (ensureRedis sink) := (uses_ensureRedis sink).imp fun _ => .inl
  refine (follows_of_uses hensure rfl).bind fun k connected _ => ?_
  cases connected with
  | false => exact hsuspended k
  | true =>
    refine (follows_read k).bind fun k' state hstate => ?_
    cases state with
    | none => exact hsuspended k'
    | some st =>
      obtain ⟨history, raw, hread, hsound, hdecode⟩ := hstate st rfl
      intro interval h
      injection h with hrun
      exact ⟨history, raw, hread, eq_zero_of_decoded hsound hdecode hrun⟩

theorem follows_program (op : Operation) : Follows protocol answered ⟨op, none⟩ op.program := by
  have hdone : ∀ {p : Prog Bool}, Uses (StateCall op) p →
      Follows protocol answered ⟨op, none⟩ (Answer.done <$> p) :=
    fun hp => follows_map (hp.imp fun _ => .inl) fun _ _ => Answer.noConfusion
  cases op with
  | pollRunStatus sink => exact (follows_pollRunStatus sink).bind fun _ _ h => h
  | pollControl sink consumeOnly =>
    exact follows_map (uses_pollAndConsumeControl sink consumeOnly) fun _ _ => Answer.noConfusion
  | writeControlCommand configured command =>
    exact follows_map (uses_writeControlCommand configured command) fun _ _ => Answer.noConfusion
  | writeRunStatus configured suspended interval =>
    exact hdone (uses_writeRunStatus configured suspended interval)
  | connect sink => exact hdone (uses_connectRedis sink)
  | heartbeat sink h => exact hdone (uses_writeDaemonHeartbeat sink h)
  | controlMessage sink message => exact hdone (uses_writeFields sink (by simp))
  | subscribedTickers sink symbols => exact hdone (uses_writeFields sink (by simp))
  | snapshot sink values => exact hdone (uses_writeSnapshot sink values)
  | gracefulShutdown sink => exact hdone (uses_writeDaemonGracefulShutdown sink)

/-! ## Runs -/

/-- No operation has started, and the hash does not exist. -/
def start (clock : ℚ) (control : Stream ControlFields) :
    Pool Call Reply Known World Answer :=
  ⟨⟨⟨clock, [], control⟩, []⟩, []⟩

theorem ok_run (pendingNil : Bool) (clock : ℚ) (control : Stream ControlFields)
    (evs : List (Event Choice ServerEvent Operation)) :
    (Runs.run (Pool.step (system pendingNil)) (start clock control) evs).Ok protocol answered
      fun s _ => SaysSo s.history s.redis.state := by
  refine Pool.Ok.run follows_program ?_ ?_ ?_ ?_ Pool.along_true
  · exact fun _ _ _ h => h
  · intro s _ e h
    cases e with
    | expire => exact fun v hv => by cases hv
    | delay d =>
      show SaysSo (s.history ++ []) s.redis.state
      rwa [List.append_nil]
  · intro s _ i k w c h _ hallowed _
    refine ⟨⟨rfl, s.history, rfl, fun raw hread => ?_⟩, h.serve w hallowed⟩
    exact (readOf_serve h w c hread).2
  · exact ⟨by simp [start], fun v hv => by cases hv⟩

/-- In every state of every run, `poll_run_status` answers that the daemon runs only when its last
call read a hash that says so, with a resume executed since the hash last expired and no write of
`suspended=True` after it: a missing hash or field, a failed read and an unreachable Redis all
answer suspended. -/
theorem runs_only_resumed (pendingNil : Bool) (clock : ℚ) (control : Stream ControlFields)
    (evs : List (Event Choice ServerEvent Operation)) :
    ∀ t ∈ (Runs.run (Pool.step (system pendingNil)) (start clock control) evs).threads,
      ∀ suspended interval, t.program = .ret (.runStatus suspended interval) →
        suspended = true ∨ ∃ history raw, t.known.read = some (history, some raw) ∧
          raw.lookup "suspended" = some "0" ∧ Resumed history := by
  intro t ht suspended interval hret
  have hfollows := (ok_run pendingNil clock control evs).follows t ht
  rw [hret, follows_ret] at hfollows
  cases suspended with
  | true => exact .inl rfl
  | false => exact .inr (hfollows interval rfl)

/-- A resume by the API, and then a poll of a connected sink. -/
def resumeThenPoll : List (Event Choice ServerEvent Operation) :=
  [.start (.writeRunStatus true (some false) none), .step 0 .ok, .step 0 .ok,
    .start (.pollRunStatus ⟨true, true⟩), .step 1 .ok, .step 1 .ok]

theorem resumeThenPoll_runs : ∃ t ∈
    (Runs.run (Pool.step (system true)) (start 0 .empty) resumeThenPoll).threads,
      t.program.result = some (.runStatus false none) ∧
        (false = true ∨ ∃ history raw, t.known.read = some (history, some raw) ∧
          raw.lookup "suspended" = some "0" ∧ Resumed history) := by
  obtain ⟨t, ht, hret⟩ : ∃ t ∈
      (Runs.run (Pool.step (system true)) (start 0 .empty) resumeThenPoll).threads,
      t.program.result = some (.runStatus false none) := by decide +kernel
  exact ⟨t, ht, hret, runs_only_resumed true 0 _ _ t ht false none
    (Program.eq_ret_of_result hret)⟩

end Persistence.Daemon.RunStatus
