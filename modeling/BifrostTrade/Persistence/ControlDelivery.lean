import BifrostTrade.Persistence.ControlOnce

/-!
# Control commands that reach the daemon

A poll reads what is pending first, and what is new only where that read returned no entry at all.
Redis answers it with one entry without messages, so a poll never reads what is new
(`pollAlone_eq`), and from an empty stream no command is ever delivered (`pollDelivers_iff`).
-/

namespace Persistence.Daemon.Control

open Py Calls Streams RedisHash

/-! ## One poll -/

/-- What a poll without `consume_only` returns when no call fails. -/
def pollAlone (s : World) (connected : Bool) : Option String :=
  (complete (serve false) .ok (pollAndConsumeControl ⟨true, connected⟩ none) .idle s).2.2

/-- The commands that are not acknowledged: those pending, and behind them those undelivered. -/
def outstanding (control : Stream ControlFields) : List ControlFields :=
  (control.pending.filterMap control.find ++ control.undelivered.map Prod.snd).filter
    ControlFields.isCommand

/-- A poll returns the oldest command that is not acknowledged, and nothing only without one. -/
def PollDelivers (s : World) : Prop :=
  ∀ connected, pollAlone s connected =
    (outstanding s.redis.control).head?.map fun f => normalizeCommand f.text

variable {s : World}

/-- The calls before the stream is read leave it alone. -/
theorem complete_stateCalls {α : Type} {op : Operation} {p : Prog α} (hp : Uses (StateCall op) p)
    (s : World) :
    (complete (serve false) .ok p .idle s).1.redis.control = s.redis.control ∧
      (complete (serve false) .ok p .idle s).2.1 = .idle := by
  refine hp.complete_invariant
    (fun (s' : World) k => s'.redis.control = s.redis.control ∧ k = Phase.idle)
    (fun s' k c hinv hc => ?_) ⟨rfl, rfl⟩
  obtain ⟨hcontrol, rfl⟩ := hinv
  cases c with
  | xgroupCreate => exact absurd hc fun h => h
  | xreadgroup start count => exact absurd hc fun h => h
  | xack i => exact absurd hc fun h => h
  | xadd maxlen fields => exact absurd hc fun h => h
  | _ => exact ⟨hcontrol, rfl⟩

theorem complete_connectRedis (connected : Bool) (k : Phase) (s : World) :
    (complete (serve false) .ok (connectRedis ⟨true, connected⟩) k s).2.2 = true := by
  have hping : (complete (serve false) .ok (connectDaemonStateRedis true) k s).2.2 = true := rfl
  rw [connectRedis, complete_bind, hping, if_pos rfl, complete_bind]
  split_ifs
  · rfl
  · rw [complete_bind]
    rfl

theorem complete_ensureRedis (connected : Bool) (s : World) :
    (complete (serve false) .ok (ensureRedis ⟨true, connected⟩) .idle s).2.2 = true := by
  have hconnected : (complete (serve false) .ok
      (if connected then .ret true else connectRedis ⟨true, connected⟩ : Prog Bool) .idle s).2.2 =
        true := by
    cases connected with
    | true => rfl
    | false => exact complete_connectRedis false .idle s
  rw [ensureRedis, complete_bind, hconnected]
  rfl

/-- The text of a message that holds a command. -/
def commandText (f : ControlFields) : Option String := if f.isCommand then some f.text else none

/-- After the group was created, or was there. -/
theorem execute_xgroupCreate (db : Redis) :
    (db.execute false 0 .xgroupCreate).1.control.grouped = true ∧
      (db.execute false 0 .xgroupCreate).1.control.entries = db.control.entries ∧
      (db.execute false 0 .xgroupCreate).1.control.pending = db.control.pending := by
  simp only [Redis.execute]
  cases hcreate : db.control.createGroup with
  | none =>
    refine ⟨?_, rfl, rfl⟩
    unfold Stream.createGroup at hcreate
    split_ifs at hcreate with hgrouped
    exact hgrouped
  | some control =>
    obtain ⟨hentries, -, -, hpending⟩ := Stream.of_createGroup hcreate
    refine ⟨?_, hentries, hpending⟩
    unfold Stream.createGroup at hcreate
    split_ifs at hcreate
    rw [← Option.some.inj hcreate]

theorem complete_takeCommand_single (m : Message) (k : Phase) (s : World) :
    (complete (serve false) .ok (takeCommand [m]) k s).2.2 = commandText m.fields := by
  by_cases hcmd : m.fields.text = ""
  · have htext : ¬ strip (textOrEmpty m.fields.command) ≠ "" := not_not.2 hcmd
    rw [commandText, if_neg (by simp [ControlFields.isCommand, hcmd])]
    simp only [takeCommand, Program.ask_bind, complete, if_neg htext]
  · have htext : strip (textOrEmpty m.fields.command) ≠ "" := hcmd
    rw [commandText, if_pos (by simp [ControlFields.isCommand, hcmd])]
    simp only [takeCommand, Program.ask_bind, complete, if_pos htext, Program.pure_eq,
      ControlFields.text]

/-- Only the oldest pending message is looked at. -/
theorem complete_consumeTradingControl (s : World) :
    (complete (serve false) .ok (consumeTradingControl 1) .idle s).2.2 =
      (s.redis.control.pending.head?.bind s.redis.control.find).bind commandText := by
  obtain ⟨hgrouped, hentries, hpending⟩ := execute_xgroupCreate s.redis
  let s₁ := (serve false .idle .ok s .xgroupCreate).1
  have hs₁ : s₁.redis = (s.redis.execute false 0 .xgroupCreate).1 := rfl
  rw [← hs₁] at hgrouped hentries hpending
  have hread : (s₁.redis.execute false 0 (.xreadgroup .pending 1)).2 =
      some [(s₁.redis.control.pending.take 1).map fun i =>
        ⟨i, (s₁.redis.control.find i).getD .missing⟩] := by
    simp [Redis.execute, Stream.readPending, hgrouped, Function.comp_def]
  have hserve : serve false .idle .ok s₁ (.xreadgroup .pending 1) =
      (s₁, Phase.idle.after _ (s₁.redis.execute false 0 (.xreadgroup .pending 1)).2,
        (s₁.redis.execute false 0 (.xreadgroup .pending 1)).2) := rfl
  have hgroup : (serve false .idle .ok s .xgroupCreate).2.1 = .idle := rfl
  simp only [consumeTradingControl, ensureControlGroup, Program.ask_bind, Program.call_bind,
    Program.pure_eq, Program.ret_bind, complete]
  rw [hgroup, show (serve false .idle .ok s .xgroupCreate).1 = s₁ from rfl, hserve, hread]
  -- the one entry of the reply is not missing, so the poll does not read what is new
  simp only [List.cons_ne_nil, if_false, List.flatten_cons, List.flatten_nil, List.append_nil]
  have hfind : s₁.redis.control.find = s.redis.control.find := by
    unfold Stream.find
    rw [hentries]
  rw [hpending, hfind]
  cases s.redis.control.pending with
  | nil => rfl
  | cons i rest =>
    have hmissing : commandText .missing = none := by decide
    rw [List.take_succ_cons, List.take_zero, List.map_singleton, complete_takeCommand_single,
      List.head?_cons, Option.bind_some]
    cases s.redis.control.find i with
    | none => exact hmissing
    | some f => rfl

/-- What a poll returns: the oldest pending message's command. -/
theorem pollAlone_eq (s : World) (connected : Bool) :
    pollAlone s connected =
      ((s.redis.control.pending.head?.bind s.redis.control.find).bind commandText).map
        normalizeCommand := by
  have huses : Uses (StateCall (.connect ⟨true, connected⟩)) (ensureRedis ⟨true, connected⟩) :=
    uses_ensureRedis _
  obtain ⟨hcontrol, hidle⟩ := complete_stateCalls huses s
  rw [pollAlone, pollAndConsumeControl, complete_bind, complete_ensureRedis, if_pos rfl,
    complete_bind, hidle, complete_consumeTradingControl, hcontrol]
  cases (s.redis.control.pending.head?.bind s.redis.control.find).bind commandText with
  | none => rfl
  | some text => rfl

/-- A poll delivers a command that is pending. -/
theorem pollDelivers_of_pending {i : ℕ} {f : ControlFields}
    (hi : s.redis.control.pending.head? = some i) (hf : s.redis.control.find i = some f)
    (hcommand : f.isCommand) : PollDelivers s := by
  intro connected
  obtain ⟨rest, hpending⟩ : ∃ rest, s.redis.control.pending = i :: rest := by
    cases hp : s.redis.control.pending with
    | nil => simp [hp] at hi
    | cons j rest => exact ⟨rest, by simpa [hp] using hi⟩
  have houtstanding : (outstanding s.redis.control).head? = some f := by
    rw [outstanding, hpending, List.filterMap_cons_some hf, List.cons_append,
      List.filter_cons_of_pos hcommand, List.head?_cons]
  rw [pollAlone_eq, hi, houtstanding, Option.bind_some, hf, Option.bind_some, commandText,
    if_pos hcommand]
  rfl

theorem pollDelivers_iff_of_nil (hpending : s.redis.control.pending = []) :
    PollDelivers s ↔ outstanding s.redis.control = [] := by
  have hnothing : ∀ connected, pollAlone s connected = none := by
    intro connected
    rw [pollAlone_eq, hpending]
    rfl
  constructor
  · intro h
    have hnone := h true
    rw [hnothing, eq_comm, Option.map_eq_none_iff, List.head?_eq_none_iff] at hnone
    exact hnone
  · intro h connected
    rw [hnothing, h]
    rfl

/-! ## Runs -/

/-- Nothing was delivered: no message is pending, and no poll may read what is new. -/
def NothingDelivered (s : World) (ks : List Phase) : Prop :=
  s.redis.control.pending = [] ∧ .nothingPending ∉ ks

/-- A read of what is pending always answers with an entry. -/
theorem readPending_ne_nil {w : Choice} {db : Redis} {count : ℕ} {rows : List (List Message)}
    (h : (db.answer false w (.xreadgroup .pending count)).2 = some rows) : rows ≠ [] := by
  have hreply := reply_of_answer h
  simp only [Redis.execute, Stream.readPending] at hreply
  split_ifs at hreply
  · have hrows := Option.some.inj hreply
    simp at hrows
    rw [← hrows]
    exact List.cons_ne_nil _ _
  · cases hreply

theorem after_ne_nothingPending {k : Phase} {w : Choice} {c : Call} (hk : k ≠ .nothingPending)
    (hallowed : Allowed k c) :
    k.after c (s.redis.answer false w c).2 ≠ .nothingPending := by
  cases c with
  | xreadgroup start count =>
    cases start with
    | new => exact absurd hallowed.1 hk
    | pending =>
      cases hr : (s.redis.answer false w (.xreadgroup .pending count)).2 with
      | none => exact hk
      | some rows =>
        cases rows with
        | nil => exact absurd rfl (readPending_ne_nil hr)
        | cons row rows =>
          show (List.flatten (row :: rows)).head?.elim k .holding ≠ .nothingPending
          cases (List.flatten (row :: rows)).head? with
          | none => exact hk
          | some m => exact fun h => by cases h
  | xack i => cases k <;> first | exact hk | exact fun h => by cases h
  | xadd maxlen fields => cases k <;> first | exact hk | exact fun h => by cases h
  | _ => exact hk

theorem pending_execute {k : Phase} {trim : ℕ} {c : Call} (hpending : s.redis.control.pending = [])
    (hk : k ≠ .nothingPending) (hallowed : Allowed k c) :
    (s.redis.execute false trim c).1.control.pending = [] := by
  cases c with
  | xreadgroup start count =>
    cases start with
    | new => exact absurd hallowed.1 hk
    | pending => exact hpending
  | xgroupCreate => rw [← (execute_xgroupCreate s.redis).2.2] at hpending; exact hpending
  | xack i =>
    show s.redis.control.pending.filter (· ≠ i) = []
    rw [hpending, List.filter_nil]
  | _ => exact hpending

theorem NothingDelivered.serve {ks : List Phase} {i : ℕ} {k : Phase} (h : NothingDelivered s ks)
    (hk : ks[i]? = some k) (w : Choice) {c : Call} (hallowed : Allowed k c) :
    NothingDelivered (Control.serve false k w s c).1
      (ks.set i (Control.serve false k w s c).2.1) := by
  obtain ⟨hpending, hnot⟩ := h
  have hne : k ≠ .nothingPending := fun heq => hnot (heq ▸ List.mem_of_getElem? hk)
  constructor
  · by_cases hw : w.delivery = .notExecuted
    · have hserve : (Control.serve false k w s c).1 = s := if_pos hw
      rwa [hserve]
    · have hserve : (Control.serve false k w s c).1.redis =
          (s.redis.execute false w.trim c).1 := by
        rw [← answer_of_executed false hw, Control.serve, if_neg hw]
        cases c <;> rfl
      rw [hserve]
      exact pending_execute hpending hne hallowed
  · intro hmem
    rcases List.mem_or_eq_of_mem_set hmem with hmem | heq
    exacts [hnot hmem, after_ne_nothingPending hne hallowed heq.symm]

/-- An empty stream. -/
def startEmpty (clock : ℚ) (state : Hash) : Pool Call Reply Phase World Answer :=
  start ⟨clock, state, .empty⟩ fun _ => clock

theorem nothingDelivered_run (clock : ℚ) (state : Hash)
    (evs : List (Event Choice ServerEvent Operation)) :
    (Runs.run (Pool.step (system false)) (startEmpty clock state) evs).Ok protocol Answers
      NothingDelivered := by
  refine Pool.Ok.run follows_program ?_ ?_ ?_ ?_ Pool.along_true
  · intro s ks op h
    refine ⟨h.1, fun hmem => ?_⟩
    rcases List.mem_append.1 hmem with hmem | hmem
    · exact h.2 hmem
    · cases List.mem_singleton.1 hmem
  · intro s ks e h
    cases e with
    | expire => exact h
    | delay d => exact h
  · intro s ks i k w c h hk hallowed _
    exact ⟨reply_serve false k w s c, h.serve hk w hallowed⟩
  · exact ⟨fun t ht => absurd ht List.not_mem_nil, rfl, List.not_mem_nil⟩

/-- In every state reached from an empty stream by publishes, polls, whatever fails and wherever
they stop, a poll delivers the oldest command that is not acknowledged only when there is none. -/
theorem pollDelivers_iff (clock : ℚ) (state : Hash)
    (evs : List (Event Choice ServerEvent Operation)) :
    PollDelivers (Runs.run (Pool.step (system false)) (startEmpty clock state) evs).shared ↔
      outstanding (Runs.run (Pool.step (system false)) (startEmpty clock state)
        evs).shared.redis.control = [] :=
  pollDelivers_iff_of_nil (nothingDelivered_run clock state evs).inv.1

/-- One stop is published, and the poll after it returns nothing. -/
theorem not_pollDelivers_stop :
    ¬ PollDelivers (Runs.run (Pool.step (system false)) (startEmpty 100 [])
      (.start (.writeControlCommand true "stop") :: List.replicate 3 (.step 0 .ok))).shared := by
  intro h
  exact absurd (h true) (by decide +kernel)

end Persistence.Daemon.Control
