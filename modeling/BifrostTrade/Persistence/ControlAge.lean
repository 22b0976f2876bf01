import BifrostTrade.Persistence.ControlOnce

/-!
# The age of a control command

`CONTROL_CMD_MAX_AGE_SEC` is not looked at by any poll.  A poll takes the oldest pending message,
or, where nothing is pending, the oldest new one (`nextMessage`); whatever its calls do, it returns
no other command, so it returns a stale one only where that message is stale and wanted.
-/

namespace Persistence.Daemon.Control

open Py Calls Streams

/-! ## Runs of operations -/

/-- An operation that makes its calls one after the other, with what happens to each, and stops
where these run out; or something at the server. -/
inductive DaemonEvent where
  | run (op : Operation) (ws : List Choice)
  | server (e : ServerEvent)

/-- An operation alone: what is left, what it knows, and what it returned. -/
def runOperation (pendingNil : Bool) (s : World) (op : Operation) (ws : List Choice) :
    World × Phase × Option Answer :=
  exec (serve pendingNil) op.program .idle s ws

/-- A call of the daemon as a whole, or what happens at the server. -/
def daemonStep (pendingNil : Bool) (s : World) : DaemonEvent → World
  | .run op ws => (runOperation pendingNil s op ws).1
  | .server e => { s with redis := s.redis.happen e }

/-- When the command of an entry was first published. -/
def World.firstPublished (s : World) (i : ℕ) : ℚ := s.addedAt (s.origin i)

/-- First published more than `CONTROL_CMD_MAX_AGE_SEC` ago. -/
def Stale (s : World) (i : ℕ) : Prop := controlCmdMaxAgeSec < s.redis.clock - s.firstPublished i

instance (s : World) (i : ℕ) : Decidable (Stale s i) := inferInstanceAs (Decidable (_ < _))

/-- A poll that returns a command took it from a message that is not stale. -/
def ReturnsFresh (pendingNil : Bool) (s : World) : DaemonEvent → Prop
  | .run op ws => ∀ cmd, (runOperation pendingNil s op ws).2.2 = some (.command (some cmd)) →
      ∃ m, (runOperation pendingNil s op ws).2.1 = .acked m ∧
        cmd = normalizeCommand m.fields.text ∧ ¬ Stale s m.id
  | .server _ => True

/-- The message a poll reads: the oldest pending one, or the oldest new one where nothing is pending
and the read of that is answered with nothing. -/
def nextMessage (pendingNil : Bool) (control : Stream ControlFields) : Option Message :=
  match control.pending with
  | i :: _ => some ⟨i, (control.find i).getD .missing⟩
  | [] => if pendingNil then control.undelivered.head?.map fun e => ⟨e.1, e.2⟩ else none

/-- The message that a poll reads is not a stale command that it wants. -/
def PollsFresh (pendingNil : Bool) (s : World) : DaemonEvent → Prop
  | .run (.pollControl _ consumeOnly) _ => ∀ m ∈ nextMessage pendingNil s.redis.control,
      m.fields.isCommand → Wanted consumeOnly (normalizeCommand m.fields.text) → ¬ Stale s m.id
  | _ => True

instance (pendingNil : Bool) (s : World) : (e : DaemonEvent) →
    Decidable (PollsFresh pendingNil s e)
  | .run (.pollControl _ _) _ => inferInstanceAs (Decidable (∀ m ∈ nextMessage _ _, _))
  | .server _ => isTrue trivial
  | .run (.writeControlCommand ..) _ => isTrue trivial
  | .run (.writeRunStatus ..) _ => isTrue trivial
  | .run (.connect _) _ => isTrue trivial
  | .run (.heartbeat ..) _ => isTrue trivial
  | .run (.controlMessage ..) _ => isTrue trivial
  | .run (.subscribedTickers ..) _ => isTrue trivial
  | .run (.snapshot ..) _ => isTrue trivial
  | .run (.gracefulShutdown _) _ => isTrue trivial
  | .run (.pollRunStatus _) _ => isTrue trivial

/-! ## What a poll reads -/

/-- The entries, and what is delivered and pending, are as before. -/
structure SameStream (s₀ s : World) : Prop where
  entries : s.redis.control.entries = s₀.redis.control.entries
  delivered : s.redis.control.delivered = s₀.redis.control.delivered
  pending : s.redis.control.pending = s₀.redis.control.pending

theorem SameStream.refl (s : World) : SameStream s s := ⟨rfl, rfl, rfl⟩

/-- What an operation that started with `s₀` has of the stream. -/
def Reads (pendingNil : Bool) (s₀ s : World) : Phase → Prop
  | .idle => SameStream s₀ s
  | .nothingPending => s₀.redis.control.pending = [] ∧ pendingNil = true ∧ SameStream s₀ s
  | .holding m => nextMessage pendingNil s₀.redis.control = some m
  | .acked m => nextMessage pendingNil s₀.redis.control = some m
  | .done => True

variable {pendingNil : Bool} {s₀ s : World} {k : Phase}

theorem SameStream.of_control (h : SameStream s₀ s) {s' : World}
    (hcontrol : s'.redis.control = s.redis.control) : SameStream s₀ s' := by
  constructor
  · rw [hcontrol, h.entries]
  · rw [hcontrol, h.delivered]
  · rw [hcontrol, h.pending]

theorem SameStream.createGroup (h : SameStream s₀ s) {control : Stream ControlFields}
    (hcreate : s.redis.control.createGroup = some control) :
    SameStream s₀ { s with redis := { s.redis with control } } := by
  obtain ⟨hentries, -, hdelivered, hpending⟩ := Stream.of_createGroup hcreate
  exact ⟨hentries.trans h.entries, hdelivered.trans h.delivered, hpending.trans h.pending⟩

theorem SameStream.find (h : SameStream s₀ s) (i : ℕ) :
    s.redis.control.find i = s₀.redis.control.find i := by
  rw [Stream.find, Stream.find, h.entries]

theorem SameStream.undelivered (h : SameStream s₀ s) :
    s.redis.control.undelivered = s₀.redis.control.undelivered := by
  rw [Stream.undelivered, Stream.undelivered, h.entries, h.delivered]

/-- A read of what is pending is answered with nothing only where nothing is pending. -/
theorem readPending_eq_nil {trim count : ℕ} {db : Redis}
    (h : (db.execute pendingNil trim (.xreadgroup .pending (count + 1))).2 = some []) :
    db.control.pending = [] ∧ pendingNil = true := by
  have hmessages := (flatten_readPending h).symm
  rw [List.flatten_nil, List.map_eq_nil_iff] at hmessages
  refine ⟨?_, ?_⟩
  · cases hp : db.control.pending with
    | nil => rfl
    | cons i rest => simp [hp] at hmessages
  · simp only [Redis.execute, Stream.readPending] at h
    split_ifs at h
    · by_contra hnil
      simp [hnil] at h
    · cases h

theorem Reads.readPending (h : SameStream s₀ s) {w : Choice} {rows : List (List Message)}
    (hr : (s.redis.answer pendingNil w (.xreadgroup .pending 1)).2 = some rows) {s' : World}
    (h' : SameStream s₀ s') :
    Reads pendingNil s₀ s' (Phase.idle.after (.xreadgroup .pending 1) (some rows)) := by
  have hreply := reply_of_answer hr
  cases rows with
  | nil =>
    obtain ⟨hpending, hnil⟩ := readPending_eq_nil hreply
    exact ⟨h.pending ▸ hpending, hnil, h'⟩
  | cons row rows =>
    show Reads pendingNil s₀ s' ((List.flatten (row :: rows)).head?.elim .idle .holding)
    rw [flatten_readPending hreply]
    cases hp : s.redis.control.pending with
    | nil => exact h'
    | cons i rest =>
      show nextMessage pendingNil s₀.redis.control = some _
      rw [nextMessage, ← h.pending, hp]
      simp only [h.find]

theorem Reads.readNew (h : Reads pendingNil s₀ s .nothingPending) {w : Choice}
    {rows : List (List Message)}
    (hr : (s.redis.answer pendingNil w (.xreadgroup .new 1)).2 = some rows) {s' : World} :
    Reads pendingNil s₀ s' (Phase.nothingPending.after (.xreadgroup .new 1) (some rows)) := by
  obtain ⟨hpending, hnil, hsame⟩ := h
  show Reads pendingNil s₀ s' ((List.flatten rows).head?.elim .done .holding)
  rw [flatten_readNew (reply_of_answer hr), hsame.undelivered]
  cases hnew : s₀.redis.control.undelivered with
  | nil => trivial
  | cons e rest =>
    show nextMessage pendingNil s₀.redis.control = some _
    rw [nextMessage, hpending]
    simp only [hnil, if_true, hnew]
    rfl

theorem Reads.of_same (h : Reads pendingNil s₀ s k) {s' : World}
    (hsame : SameStream s₀ s → SameStream s₀ s') : Reads pendingNil s₀ s' k := by
  cases k with
  | idle => exact hsame h
  | nothingPending => exact ⟨h.1, h.2.1, hsame h.2.2⟩
  | holding m => exact h
  | acked m => exact h
  | done => trivial

/-- Calls that deliver, acknowledge or add nothing. -/
def LeavesStream : Call → Prop
  | .xreadgroup .new _ => False
  | .xack _ => False
  | .xadd .. => False
  | _ => True

theorem SameStream.serve (h : SameStream s₀ s) (w : Choice) {c : Call} (hc : LeavesStream c) :
    SameStream s₀ (Control.serve pendingNil k w s c).1 := by
  by_cases hw : w.delivery = .notExecuted
  · rw [Control.serve, if_pos hw]
    exact h
  · rw [Control.serve, if_neg hw, answer_of_executed pendingNil hw]
    cases c with
    | xreadgroup start count =>
      cases start with
      | pending => exact h
      | new => exact absurd hc fun h => h
    | xack id => exact absurd hc fun h => h
    | xadd maxlen fields => exact absurd hc fun h => h
    | xgroupCreate =>
      simp only [Redis.execute]
      cases hcreate : s.redis.control.createGroup with
      | none => exact h
      | some control => exact h.createGroup hcreate
    | _ => exact h.of_control rfl

/-- Every call keeps what the operation has of the stream. -/
theorem Reads.serve (h : Reads pendingNil s₀ s k) (w : Choice) {c : Call}
    (hallowed : Allowed k c) :
    Reads pendingNil s₀ (Control.serve pendingNil k w s c).1
      (Control.serve pendingNil k w s c).2.1 := by
  cases c with
  | xreadgroup start count =>
    cases start with
    | pending =>
      obtain ⟨rfl, rfl⟩ := hallowed
      have hsame : SameStream s₀ (Control.serve pendingNil .idle w s (.xreadgroup .pending 1)).1 :=
        SameStream.serve h w trivial
      show Reads _ _ _ (Phase.idle.after (.xreadgroup .pending 1)
        (s.redis.answer pendingNil w (.xreadgroup .pending 1)).2)
      cases hr : (s.redis.answer pendingNil w (.xreadgroup .pending 1)).2 with
      | none => exact hsame
      | some rows => exact Reads.readPending h hr hsame
    | new =>
      obtain ⟨rfl, rfl⟩ := hallowed
      show Reads _ _ _ (Phase.nothingPending.after (.xreadgroup .new 1)
        (s.redis.answer pendingNil w (.xreadgroup .new 1)).2)
      cases hr : (s.redis.answer pendingNil w (.xreadgroup .new 1)).2 with
      | none => trivial
      | some rows => exact h.readNew hr
  | xack id =>
    obtain ⟨m, rfl, rfl⟩ := hallowed
    exact h
  | xadd maxlen fields => trivial
  | _ => exact h.of_same fun hsame => hsame.serve w trivial

/-- A poll returns the command of the message that was next, which it wants. -/
theorem runOperation_pollControl (sink : Sink) (consumeOnly : Option (List String))
    (ws : List Choice) (cmd : String)
    (hcmd : (runOperation pendingNil s (.pollControl sink consumeOnly) ws).2.2 =
      some (.command (some cmd))) :
    ∃ m, (runOperation pendingNil s (.pollControl sink consumeOnly) ws).2.1 = .acked m ∧
      nextMessage pendingNil s.redis.control = some m ∧ m.fields.isCommand ∧
      cmd = normalizeCommand m.fields.text ∧ Wanted consumeOnly cmd := by
  rw [runOperation, Operation.program, exec_map] at hcmd ⊢
  dsimp only at hcmd ⊢
  obtain ⟨hreads, hresult⟩ := exec_invariant (Reads pendingNil s)
    (fun s' k w c h hallowed => ⟨reply_serve pendingNil k w s' c, h.serve w hallowed⟩)
    (follows_pollControl sink consumeOnly) (SameStream.refl s) ws
  obtain ⟨c, hc, hcommand⟩ := Option.map_eq_some_iff.1 hcmd
  obtain ⟨hanswers, hwanted⟩ := hresult c hc
  obtain rfl : c = some cmd := by injection hcommand
  have htaken : ∃ m, (exec (serve pendingNil) (pollAndConsumeControl sink consumeOnly) .idle s
      ws).2.1 = .acked m ∧ m.fields.isCommand ∧ cmd = normalizeCommand m.fields.text := hanswers
  obtain ⟨m, hm, hiscommand, hnormal⟩ := htaken
  rw [hm] at hreads
  exact ⟨m, hm, hreads, hiscommand, hnormal, hwanted cmd rfl⟩

theorem returnsFresh_of_pollsFresh {e : DaemonEvent} (h : PollsFresh pendingNil s e) :
    ReturnsFresh pendingNil s e := by
  cases e with
  | server e => trivial
  | run op ws =>
    intro cmd hcmd
    have hmap : ∀ {α : Type} (f : α → Answer) (p : Prog α), op.program = f <$> p →
        ∃ a, f a = .command (some cmd) := by
      intro α f p hp
      rw [runOperation, hp, exec_map] at hcmd
      obtain ⟨a, -, ha⟩ := Option.map_eq_some_iff.1 hcmd
      exact ⟨a, ha⟩
    have hdone : ∀ p : Prog Bool, op.program = Answer.done <$> p → False := by
      intro p hp
      obtain ⟨a, ha⟩ := hmap _ p hp
      cases ha
    cases op with
    | pollControl sink consumeOnly =>
      obtain ⟨m, hm, hnext, hcommand, hnormal, hwanted⟩ :=
        runOperation_pollControl sink consumeOnly ws cmd hcmd
      have hfresh : ∀ m ∈ nextMessage pendingNil s.redis.control, m.fields.isCommand →
          Wanted consumeOnly (normalizeCommand m.fields.text) → ¬ Stale s m.id := h
      exact ⟨m, hm, hnormal, hfresh m hnext hcommand (hnormal ▸ hwanted)⟩
    | pollRunStatus sink =>
      obtain ⟨a, ha⟩ := hmap _ _ rfl
      cases ha
    | _ => exact (hdone _ rfl).elim

/-- In every run whose polls are all fresh, whatever the stream holds and whatever its calls do, no
poll returns a command that was first published more than `CONTROL_CMD_MAX_AGE_SEC` before. -/
theorem returnsFresh_run (pendingNil : Bool) (redis : Redis) (addedAt : ℕ → ℚ)
    (evs : List DaemonEvent)
    (h : Runs.Along (daemonStep pendingNil) (start redis addedAt).shared
      (fun _ s e => PollsFresh pendingNil s e) evs) :
    Runs.Along (daemonStep pendingNil) (start redis addedAt).shared
      (fun _ s e => ReturnsFresh pendingNil s e) evs :=
  h.imp fun _ _ _ he => returnsFresh_of_pollsFresh he

/-- A pending stop first published 60 seconds before the poll. -/
theorem returnsFresh_run_atMaxAge :
    Runs.Along (daemonStep false) (start samplePendingStop fun _ => 40).shared
      (fun _ s e => ReturnsFresh false s e)
      [.run (.pollControl ⟨true, true⟩ none) (List.replicate 4 .ok)] :=
  returnsFresh_run false _ _ _ (by decide +kernel)

/-- A stop that was delivered, not acknowledged, and is read again after a minute and a second. -/
theorem not_returnsFresh_afterMaxAge :
    ¬ Runs.Along (daemonStep false) (start samplePendingStop fun _ => 40).shared
      (fun _ s e => ReturnsFresh false s e)
      [.server (.delay 1), .run (.pollControl ⟨true, true⟩ none) (List.replicate 4 .ok)] := by
  intro h
  obtain ⟨-, h⟩ := Runs.along_cons.1 h
  obtain ⟨m, hm, -, hfresh⟩ := (Runs.along_cons.1 h).1 "stop" (by decide +kernel)
  have hread : (runOperation false (daemonStep false (start samplePendingStop fun _ => 40).shared
      (.server (.delay 1))) (.pollControl ⟨true, true⟩ none) (List.replicate 4 .ok)).2.1 =
      .acked ⟨1, ⟨some "stop", some "api", some 40⟩⟩ := by
    decide +kernel
  rw [hread] at hm
  rw [← Phase.acked.inj hm] at hfresh
  exact hfresh (by decide +kernel)

end Persistence.Daemon.Control
