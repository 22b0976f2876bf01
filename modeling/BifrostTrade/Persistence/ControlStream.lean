import BifrostTrade.Persistence.DaemonRedis

/-!
# Control commands in flight

What a control command goes through: it is published, delivered to a poll, acknowledged, and
returned or published again.  Beside Redis stands which entry goes back to which publish, and each
operation knows the message in its hands (`Phase`).  `follows_program` says that the operations
treat messages in this order.
-/

namespace Persistence.Daemon

open Py Calls Streams

/-- The command of a message, stripped. -/
def ControlFields.text (f : ControlFields) : String := strip (textOrEmpty f.command)

/-- The message holds a command. -/
def ControlFields.isCommand (f : ControlFields) : Bool := f.text ≠ ""

namespace Control

/-! ## What stands beside Redis -/

/-- What an operation has of the stream: nothing read yet, nothing where it read what is pending, a
message that is read or acknowledged, or nothing any more: none was read, or one was published. -/
inductive Phase where
  | idle
  | nothingPending
  | holding (m : Message)
  | acked (m : Message)
  | done
  deriving DecidableEq

/-- The phase after a call and its reply. -/
def Phase.after (k : Phase) : (c : Call) → Option (Reply c) → Phase
  | .xreadgroup .pending _, some [] => .nothingPending
  | .xreadgroup .pending _, some rows => (List.flatten rows).head?.elim k .holding
  | .xreadgroup .new _, r => (r.bind fun rows => (List.flatten rows).head?).elim .done .holding
  | .xack _, _ => match k with
      | .holding m => .acked m
      | k => k
  | .xadd .., _ => .done
  | _, _ => k

/-- Redis, with the publish that each entry goes back to, the time each entry was added, and the
entries that were published as commands, not again. -/
structure World where
  redis : Redis
  origin : ℕ → ℕ
  addedAt : ℕ → ℚ
  commands : List ℕ

/-- The publish that a new entry goes back to: that of the message in hand, else its own. -/
def World.originOfNew (s : World) : Phase → ℕ
  | .acked m => s.origin m.id
  | _ => s.redis.control.lastId + 1

/-- What an executed call adds to what stands beside Redis. -/
def World.record (s : World) (k : Phase) (redis : Redis) : Call → World
  | .xadd .. =>
      let new := s.redis.control.lastId + 1
      { redis
        origin := Function.update s.origin new (s.originOfNew k)
        addedAt := Function.update s.addedAt new s.redis.clock
        commands := match k with
          | .acked _ => s.commands
          | _ => s.commands ++ [new] }
  | _ => { s with redis }

/-- One call as the server and the poll see it. -/
def serve (pendingNil : Bool) (k : Phase) (w : Choice) (s : World) (c : Call) :
    World × Phase × Option (Reply c) :=
  let r := s.redis.answer pendingNil w c
  (if w.delivery = .notExecuted then s else s.record k r.1 c, k.after c r.2, r.2)

/-! ## The order of the calls -/

/-- A read has at most as many messages as it asked for. -/
def FewMessages : (c : Call) → Option (Reply c) → Prop
  | .xreadgroup _ count, some rows => (List.flatten rows).length ≤ count
  | _, _ => True

/-- A publish is of a new command, or of the one in hand after its acknowledgement. -/
def MayPublish (k : Phase) (text : String) : Prop :=
  k = .idle ∨ ∃ m, k = .acked m ∧ m.fields.isCommand ∧ text = normalizeCommand m.fields.text

/-- One message is read at a time, a new one only where nothing is pending; the message in hand is
acknowledged, and after that nothing is called but what publishes its command again. -/
def Allowed (k : Phase) : Call → Prop
  | .xreadgroup .pending count => k = .idle ∧ count = 1
  | .xreadgroup .new count => k = .nothingPending ∧ count = 1
  | .xack id => ∃ m, k = .holding m ∧ m.id = id
  | .xadd maxlen fields => 0 < maxlen ∧ fields.isCommand ∧ MayPublish k fields.text
  | .time => True
  | _ => k = .idle

/-- What the operations may call, and how a reply moves them on. -/
def protocol : Protocol Call Reply Phase where
  allowed := Allowed
  reply k c k' r := k' = k.after c r ∧ FewMessages c r

/-- A poll returns the command in hand, and nothing only without one; no other operation has a
message in hand. -/
def Answers (k : Phase) : Answer → Prop
  | .command (some c) => ∃ m, k = .acked m ∧ m.fields.isCommand ∧ c = normalizeCommand m.fields.text
  | .command none => ∀ m, k = .acked m → m.fields.isCommand = false
  | _ => ∀ m, k ≠ .acked m

theorem follows_of_uses {α : Type} (op : Operation) {p : Prog α} (hp : Uses (StateCall op) p) :
    Follows protocol (fun k _ => k = .idle) .idle p := by
  refine hp.follows (K := fun k => k = Phase.idle) (fun k c hk hc => ?_) rfl
  subst hk
  cases c with
  | xreadgroup start count => exact absurd hc fun h => h
  | xack i => exact absurd hc fun h => h
  | xadd maxlen fields => exact absurd hc fun h => h
  | time => exact ⟨trivial, fun k r hr => hr.1⟩
  | _ => exact ⟨rfl, fun k r hr => hr.1⟩

theorem text_of_strip (command : String) (source : Option String) (createdAt : Option ℚ) :
    (ControlFields.mk (some (strip command)) source createdAt).text = strip command :=
  strip_strip command

/-- What a publish adds; a text without a command is not published. -/
theorem follows_publishControl {command source : String} {k : Phase}
    (hk : MayPublish k (strip command)) :
    Follows protocol (fun k' _ => k' = k ∧ strip command = "" ∨ k' = .done) k
      (publishTradingControl command source) := by
  unfold publishTradingControl publishControl
  rcases eq_or_ne (strip command) "" with hcmd | hcmd
  · rw [if_pos hcmd]
    exact .inl ⟨rfl, hcmd⟩
  · rw [if_neg hcmd]
    refine ⟨trivial, fun k₁ now hnow => ?_⟩
    obtain rfl : k₁ = k := hnow.1
    have htext := text_of_strip command (some source) now
    have hcommand : (ControlFields.mk (some (strip command)) (some source) now).isCommand := by
      refine decide_eq_true ?_
      rwa [htext]
    rw [← htext] at hk
    exact ⟨⟨by decide, hcommand, hk⟩, fun k₂ r hr => .inr hr.1⟩

-- from here on a publish is what `follows_publishControl` says of it
attribute [local irreducible] publishTradingControl

theorem normalizeCommand_mem (text : String) : normalizeCommand text ∈ controlCommands := by
  unfold normalizeCommand
  generalize lower (strip text) = cmd
  by_cases h : cmd ∈ controlCommands
  · rwa [if_pos h]
  · rw [if_neg h]
    decide

theorem strip_normalizeCommand (text : String) :
    strip (normalizeCommand text) = normalizeCommand text ∧ normalizeCommand text ≠ "" := by
  have hall : controlCommands.all (fun c => strip c = c ∧ c ≠ "") = true := by decide
  exact of_decide_eq_true (List.all_eq_true.1 hall _ (normalizeCommand_mem text))

/-- What a poll that took a text from the stream knows. -/
def Took (k : Phase) : Option String → Prop
  | some text => ∃ m, k = .acked m ∧ m.fields.isCommand ∧ text = m.fields.text
  | none => ∀ m, k = .acked m → m.fields.isCommand = false

theorem follows_takeCommand {messages : List Message} (hfew : messages.length ≤ 1) {k : Phase}
    (hk : ∀ m, k ≠ .acked m) :
    Follows protocol Took (messages.head?.elim k .holding) (takeCommand messages) := by
  cases messages with
  | nil => exact fun m h => absurd h (hk m)
  | cons m rest =>
    obtain rfl : rest = [] := List.length_eq_zero_iff.1 (by simpa using hfew)
    refine ⟨⟨m, rfl, rfl⟩, fun k r hr => ?_⟩
    obtain rfl : k = .acked m := hr.1
    rcases eq_or_ne m.fields.text "" with hcmd | hcmd
    · have htext : strip (textOrEmpty m.fields.command) = "" := hcmd
      simp only [Program.pure_eq, htext]
      intro m' hm'
      obtain rfl := Phase.acked.inj hm'
      simp [ControlFields.isCommand, hcmd]
    · have htext : strip (textOrEmpty m.fields.command) ≠ "" := hcmd
      simp only [Program.pure_eq, if_pos htext]
      exact ⟨m, rfl, by simpa [ControlFields.isCommand] using hcmd, rfl⟩

theorem follows_readNew {next : Option (List (List Message)) → Prog (Option String)}
    (hnone : next none = .ret none)
    (hsome : ∀ rows, next (some rows) = takeCommand (List.flatten rows)) :
    Follows protocol Took .nothingPending (.call (.xreadgroup .new 1) next) := by
  have hacked : ∀ m, Phase.done ≠ .acked m := fun m h => by cases h
  refine ⟨⟨rfl, rfl⟩, fun k rows hrows => ?_⟩
  obtain ⟨rfl, hfew⟩ := hrows
  cases rows with
  | none =>
    rw [hnone]
    exact fun m h => absurd h (hacked m)
  | some rows =>
    rw [hsome]
    exact follows_takeCommand hfew hacked

theorem follows_consumeTradingControl :
    Follows protocol Took .idle (consumeTradingControl 1) := by
  have hacked : ∀ m, Phase.idle ≠ .acked m := fun m h => by cases h
  refine ⟨rfl, fun k₁ _ hgroup => ?_⟩
  obtain rfl : k₁ = .idle := hgroup.1
  refine ⟨⟨rfl, rfl⟩, fun k₂ rows hrows => ?_⟩
  cases rows with
  | none =>
    obtain rfl : k₂ = .idle := hrows.1
    exact fun m h => absurd h (hacked m)
  | some rows =>
    obtain ⟨rfl, hfew⟩ := hrows
    cases rows with
    | nil => exact follows_readNew rfl fun _ => rfl
    | cons row rows => exact follows_takeCommand hfew hacked

/-- A command that a poll takes for itself. -/
def Wanted (consumeOnly : Option (List String)) (cmd : String) : Prop :=
  ∀ wanted ∈ consumeOnly, cmd ∈ wanted

instance (consumeOnly : Option (List String)) (cmd : String) :
    Decidable (Wanted consumeOnly cmd) :=
  inferInstanceAs (Decidable (∀ wanted ∈ consumeOnly, _))

theorem follows_pollControl (sink : Sink) (consumeOnly : Option (List String)) :
    Follows protocol (fun k cmd => Answers k (.command cmd) ∧ ∀ c ∈ cmd, Wanted consumeOnly c) .idle
      (pollAndConsumeControl sink consumeOnly) := by
  have hnothing : ∀ {k : Phase}, Answers k (.command none) →
      Answers k (.command none) ∧ ∀ c ∈ (none : Option String), Wanted consumeOnly c :=
    fun h => ⟨h, fun c hc => by cases hc⟩
  refine (follows_of_uses (.pollControl sink consumeOnly) (uses_ensureRedis sink)).bind ?_
  rintro _ connected rfl
  cases connected with
  | false => exact hnothing fun m h => by cases h
  | true =>
    refine follows_consumeTradingControl.bind fun k cmd htook => ?_
    cases cmd with
    | none => exact hnothing htook
    | some text =>
      obtain ⟨m, rfl, hcommand, rfl⟩ := htook
      obtain ⟨hstrip, hcmd⟩ := strip_normalizeCommand m.fields.text
      have hpublish : MayPublish (.acked m) (strip (normalizeCommand m.fields.text)) :=
        .inr ⟨m, rfl, hcommand, hstrip⟩
      have hreturn : Answers (.acked m) (.command (some (normalizeCommand m.fields.text))) :=
        ⟨m, rfl, hcommand, rfl⟩
      dsimp only
      generalize normalizeCommand m.fields.text = cmd at hstrip hcmd hpublish hreturn
      split_ifs with hwanted
      · refine (follows_publishControl hpublish).bind fun k' _ hk' => ?_
        rcases hk' with ⟨-, hblank⟩ | rfl
        · exact absurd (hstrip.symm.trans hblank) hcmd
        · exact hnothing fun m' h => by cases h
      · refine ⟨hreturn, fun c hc wanted hmem => ?_⟩
        obtain rfl : cmd = c := Option.some.inj hc
        rw [Option.mem_def.1 hmem] at hwanted
        simpa using hwanted

theorem follows_writeControlCommand (configured : Bool) (command : String) :
    Follows protocol (fun k _ => ∀ m, k ≠ .acked m) .idle
      (writeControlCommand configured command) := by
  have hconnect := follows_of_uses (.writeControlCommand configured command)
    (uses_connectDaemonStateRedis configured)
  refine hconnect.bind ?_
  rintro _ connected rfl
  cases connected with
  | false => exact fun m h => by cases h
  | true =>
    refine (follows_publishControl (.inl rfl)).imp fun k _ hk m => ?_
    rcases hk with ⟨rfl, -⟩ | rfl <;> exact fun h => by cases h

/-- Every operation treats messages in order. -/
theorem follows_program (op : Operation) : Follows protocol Answers .idle op.program := by
  have hidle : ∀ {α : Type} {p : Prog α} {g : α → Answer}, Uses (StateCall op) p →
      (∀ a, Answers .idle (g a)) → Follows protocol Answers .idle (g <$> p) := by
    intro α p g hp hg
    refine (follows_of_uses op hp).bind ?_
    rintro _ a rfl
    exact hg a
  have hnone : ∀ m, Phase.idle ≠ .acked m := fun m h => by cases h
  have hdone : ∀ {p : Prog Bool}, Uses (StateCall op) p →
      Follows protocol Answers .idle (Answer.done <$> p) := fun hp => hidle hp fun _ => hnone
  cases op with
  | pollControl sink consumeOnly =>
    exact (follows_pollControl sink consumeOnly).bind fun _ _ h => h.1
  | writeControlCommand configured command =>
    exact (follows_writeControlCommand configured command).bind fun _ _ h => h
  | writeRunStatus configured suspended interval =>
    exact hdone (uses_writeRunStatus configured suspended interval)
  | connect sink => exact hdone (uses_connectRedis sink)
  | heartbeat sink h => exact hdone (uses_writeDaemonHeartbeat sink h)
  | controlMessage sink message => exact hdone (uses_writeFields sink (by simp))
  | subscribedTickers sink symbols => exact hdone (uses_writeFields sink (by simp))
  | snapshot sink values => exact hdone (uses_writeSnapshot sink values)
  | gracefulShutdown sink => exact hdone (uses_writeDaemonGracefulShutdown sink)
  | pollRunStatus sink => exact hidle (uses_pollRunStatus sink) fun _ => hnone

/-! ## Redis keeps to the protocol -/

/-- The messages of a read of what is pending. -/
theorem flatten_readPending {pendingNil : Bool} {trim count : ℕ} {db : Redis}
    {rows : List (List Message)}
    (h : (db.execute pendingNil trim (.xreadgroup .pending count)).2 = some rows) :
    List.flatten rows = (db.control.pending.take count).map fun i =>
      ⟨i, (db.control.find i).getD .missing⟩ := by
  simp only [Redis.execute, Stream.readPending] at h
  split_ifs at h with hgrouped
  · rw [Option.map_some, List.map_map] at h
    rw [← Option.some.inj h]
    split_ifs with hnil
    · exact hnil.1.symm
    · exact List.append_nil _
  · cases h

/-- The messages of a read of what is new. -/
theorem flatten_readNew {pendingNil : Bool} {trim count : ℕ} {db : Redis}
    {rows : List (List Message)}
    (h : (db.execute pendingNil trim (.xreadgroup .new count)).2 = some rows) :
    List.flatten rows = (db.control.undelivered.take count).map fun e => ⟨e.1, e.2⟩ := by
  simp only [Redis.execute] at h
  cases hread : db.control.readNew count with
  | none =>
    rw [hread] at h
    cases h
  | some given =>
    obtain ⟨hgiven, -⟩ := Stream.of_readNew hread
    rw [hread] at h
    rw [← Option.some.inj h, ← hgiven]
    split_ifs with hnil
    · rw [hnil]
      rfl
    · exact List.append_nil _

theorem fewMessages_execute (pendingNil : Bool) (trim : ℕ) (db : Redis) (c : Call) :
    FewMessages c (db.execute pendingNil trim c).2 := by
  cases hr : (db.execute pendingNil trim c).2 with
  | none => cases c <;> trivial
  | some r =>
    cases c with
    | xreadgroup start count =>
      cases start with
      | pending =>
        show (List.flatten r).length ≤ count
        rw [flatten_readPending hr, List.length_map]
        exact List.length_take_le _ _
      | new =>
        show (List.flatten r).length ≤ count
        rw [flatten_readNew hr, List.length_map]
        exact List.length_take_le _ _
    | _ => trivial

theorem fewMessages_answer (pendingNil : Bool) (w : Choice) (db : Redis) (c : Call) :
    FewMessages c (db.answer pendingNil w c).2 := by
  cases hr : (db.answer pendingNil w c).2 with
  | none => cases c <;> trivial
  | some r =>
    have hfew := fewMessages_execute pendingNil w.trim db c
    rwa [reply_of_answer hr] at hfew

theorem reply_serve (pendingNil : Bool) (k : Phase) (w : Choice) (s : World) (c : Call) :
    protocol.reply k c (serve pendingNil k w s c).2.1 (serve pendingNil k w s c).2.2 :=
  ⟨rfl, fewMessages_answer pendingNil w s.redis c⟩

end Control

end Persistence.Daemon
