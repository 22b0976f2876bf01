import BifrostTrade.Persistence.ControlStream
import Mathlib.Algebra.Order.Group.Multiset
import Mathlib.Tactic.Abel

/-!
# Control commands executed at most once

Pollers and writers interleaved call by call.  Every command that is not yet returned is in one
place: undelivered, pending, or carried by a poll that acknowledged it (`origins`).  `Kept` is that
invariant; the calls that break it are those `KeepsPlace` excludes.  Without them no command is
returned twice, and none is lost but those that a poll has acknowledged and not yet published again
(`controlLaw_run`).
-/

namespace Persistence.Daemon.Control

open Py Calls Streams

/-! ## The law -/

/-- Pollers and writers, with every operation of the daemon beside them. -/
def system (pendingNil : Bool) :
    System Call Reply Phase World Answer Choice ServerEvent Operation where
  program := Operation.program
  init _ := .idle
  serve := serve pendingNil
  env s e := { s with redis := s.redis.happen e }

/-- The commands in a stream that are undelivered or pending. -/
def commandsOf (control : Stream ControlFields) : List ℕ :=
  (control.entries.filter fun e =>
    (control.delivered < e.1 ∨ e.1 ∈ control.pending) ∧ e.2.isCommand).map Prod.fst

/-- Any content of Redis, each entry its own publish, and no operation started. -/
def start (redis : Redis) (addedAt : ℕ → ℚ) : Pool Call Reply Phase World Answer :=
  ⟨⟨redis, id, addedAt, commandsOf redis.control⟩, []⟩

/-- A poll that returned the command of a publish. -/
def Returned (s : World) (t : Thread Call Reply Phase Answer) (o : ℕ) : Prop :=
  ∃ m, t.known = .acked m ∧ s.origin m.id = o ∧
    t.program = .ret (.command (some (normalizeCommand m.fields.text)))

/-- The message that a poll acknowledged and did not publish again. -/
def carried : Phase → Option ℕ
  | .acked m => if m.fields.isCommand then some m.id else none
  | _ => none

/-- A poll between the acknowledgement of a command and its publish: the command is not wanted, and
the `XADD` that puts it back is still to come. -/
def Requeues (s : World) (t : Thread Call Reply Phase Answer) (o : ℕ) : Prop :=
  (carried t.known).map s.origin = some o ∧ t.program.result = none

instance (s : World) (t : Thread Call Reply Phase Answer) (o : ℕ) : Decidable (Requeues s t o) :=
  inferInstanceAs (Decidable (_ ∧ _))

/-- Every command is returned by at most one poll, and one that is not returned is undelivered or
pending, as it was published or as a poll published it again. -/
structure ControlLaw (pool : Pool Call Reply Phase World Answer) : Prop where
  once : ∀ (i j : ℕ) (t t' : Thread Call Reply Phase Answer) (o : ℕ),
    pool.threads[i]? = some t → pool.threads[j]? = some t' →
      Returned pool.shared t o → Returned pool.shared t' o → i = j
  kept : ∀ o ∈ pool.shared.commands,
    (∃ t ∈ pool.threads, Returned pool.shared t o) ∨
      (∃ e ∈ pool.shared.redis.control.undelivered, pool.shared.origin e.1 = o) ∨
      ∃ i ∈ pool.shared.redis.control.pending, pool.shared.origin i = o

/-- The command that a poll has read and not acknowledged. -/
def Phase.heldCommand : Phase → Option ℕ
  | .holding m => if m.fields.isCommand then some m.id else none
  | _ => none

/-- The calls that keep a command in one place.  Excluded are: a read of a pending command that
another poll has in hand; an acknowledgement of a command that is not executed; a command that is
not published again; and a publish that trims an undelivered or pending entry. -/
def KeepsPlace (s : World) (ks : List Phase) (k : Phase) (w : Choice) : Call → Prop
  | .xreadgroup .pending count => w.delivery = .answered →
      ∀ i ∈ s.redis.control.pending.take count, ∀ k' ∈ ks, k'.heldCommand ≠ some i
  | .xack _ => w.delivery = .notExecuted → k.heldCommand = none
  | .xadd maxlen _ => (w.delivery = .notExecuted → k = .idle) ∧
      (w.delivery ≠ .notExecuted → s.redis.control.Spares maxlen w.trim)
  | _ => True

instance (s : World) (ks : List Phase) (k : Phase) (w : Choice) :
    (c : Call) → Decidable (KeepsPlace s ks k w c)
  | .xreadgroup .pending _ => inferInstanceAs (Decidable (_ → ∀ i ∈ _, ∀ k' ∈ _, _))
  | .xreadgroup .new _ => isTrue trivial
  | .xack _ => inferInstanceAs (Decidable (_ → _))
  | .xadd .. => inferInstanceAs (Decidable (_ ∧ _))
  | .time => isTrue trivial
  | .ping => isTrue trivial
  | .hgetall => isTrue trivial
  | .hsetExpire .. => isTrue trivial
  | .xgroupCreate => isTrue trivial

/-! ## The place of a command -/

/-- What is undelivered, pending or carried. -/
def places (s : World) (ks : List Phase) : Multiset ℕ :=
  ((s.redis.control.undelivered.map Prod.fst : List ℕ) : Multiset ℕ) +
    (s.redis.control.pending : Multiset ℕ) + (ks.filterMap carried : Multiset ℕ)

/-- The publishes that what is undelivered, pending or carried goes back to. -/
def origins (s : World) (ks : List Phase) : Multiset ℕ := (places s ks).map s.origin

/-- A message in hand is what its entry holds, and a command in hand is still pending. -/
structure InHand (s : World) (m : Message) : Prop where
  le : m.id ≤ s.redis.control.delivered
  fields : ∀ f, (m.id, f) ∈ s.redis.control.entries → f = m.fields
  isCommand : s.origin m.id ∈ s.commands → m.fields.isCommand
  pending : m.fields.isCommand → m.id ∈ s.redis.control.pending

/-- Every command is in one place, and is there as a command. -/
structure Kept (s : World) (ks : List Phase) : Prop where
  nodup : (origins s ks).Nodup
  kept : ∀ o ∈ s.commands, o ∈ origins s ks
  origin_le : ∀ i ≤ s.redis.control.lastId, s.origin i ≤ s.redis.control.lastId
  places_le : ∀ i ∈ places s ks, i ≤ s.redis.control.lastId
  content : ∀ i, (i ∈ s.redis.control.undelivered.map Prod.fst ∨ i ∈ s.redis.control.pending) →
    s.origin i ∈ s.commands → ∃ f, (i, f) ∈ s.redis.control.entries ∧ f.isCommand
  hands : ∀ m, .holding m ∈ ks → InHand s m
  alone : ∀ (i j : ℕ) (m m' : Message), ks[i]? = some (Phase.holding m) →
    ks[j]? = some (Phase.holding m') → m.fields.isCommand → m.id = m'.id → i = j

variable {s s' : World} {ks : List Phase} {i j : ℕ} {k k' : Phase}

theorem filterMap_set (h : ks[i]? = some k) (k' : Phase) :
    ((ks.set i k').filterMap carried : Multiset ℕ) + ((carried k).toList : Multiset ℕ) =
      (ks.filterMap carried : Multiset ℕ) + ((carried k').toList : Multiset ℕ) := by
  induction ks generalizing i with
  | nil => simp at h
  | cons a ks ih =>
    have hcons : ∀ (b : Phase) (l : List Phase), ((b :: l).filterMap carried : Multiset ℕ) =
        ((carried b).toList : Multiset ℕ) + (l.filterMap carried : Multiset ℕ) := by
      intro b l
      rw [List.filterMap_cons]
      cases carried b <;> simp
    cases i with
    | zero =>
      obtain rfl : a = k := by simpa using h
      rw [List.set_cons_zero, hcons, hcons]
      abel
    | succ i =>
      rw [List.set_cons_succ, hcons, hcons, add_assoc, add_assoc, ih (by simpa using h)]

/-- A message in hand beside a poll that has none is one from before. -/
theorem getElem?_set_holding (hk' : ∀ m, k' ≠ .holding m) {j : ℕ} {m : Message}
    (h : (ks.set i k')[j]? = some (Phase.holding m)) :
    i ≠ j ∧ ks[j]? = some (Phase.holding m) := by
  rw [List.getElem?_set] at h
  by_cases hij : i = j
  · rw [if_pos hij] at h
    split_ifs at h
    exact absurd (Option.some.inj h) (hk' m)
  · rw [if_neg hij] at h
    exact ⟨hij, h⟩

/-- A phase that carries as much as the one before. -/
theorem places_set (h : ks[i]? = some k) (hcarried : carried k' = carried k) :
    places s (ks.set i k') = places s ks := by
  have hset := filterMap_set h k'
  rw [hcarried] at hset
  rw [places, places, add_right_cancel hset]

theorem mem_places {j : ℕ} : j ∈ places s ks ↔
    j ∈ s.redis.control.undelivered.map Prod.fst ∨ j ∈ s.redis.control.pending ∨
      j ∈ ks.filterMap carried := by
  simp only [places, Multiset.mem_add, Multiset.mem_coe, or_assoc]

theorem mem_origins {o : ℕ} : o ∈ origins s ks ↔ ∃ j ∈ places s ks, s.origin j = o :=
  Multiset.mem_map

theorem carried_acked {m : Message} (h : m.fields.isCommand) :
    carried (.acked m) = some m.id := if_pos h

/-- After a poll took a message in hand that no other poll has, or none. -/
theorem Kept.set (h : Kept s ks) (hk : ks[i]? = some k) (hcarried : carried k' = carried k)
    (hholding : ∀ m, k' = .holding m → InHand s m ∧ ∀ m', .holding m' ∈ ks → m'.id = m.id →
      m.fields.isCommand = false ∧ m'.fields.isCommand = false) : Kept s (ks.set i k') := by
  have horigins : origins s (ks.set i k') = origins s ks := by
    rw [origins, places_set hk hcarried, origins]
  have hother : ∀ (j : ℕ) (m : Message), i ≠ j → (ks.set i k')[j]? = some (Phase.holding m) →
      ks[j]? = some (Phase.holding m) := by
    intro j m hij hj
    rwa [List.getElem?_set_ne hij] at hj
  have hself : ∀ m : Message, (ks.set i k')[i]? = some (Phase.holding m) → k' = .holding m := by
    intro m hm
    rw [List.getElem?_set_self (List.getElem?_eq_some_iff.1 hk).1] at hm
    exact Option.some.inj hm
  constructor
  · rw [horigins]
    exact h.nodup
  · rw [horigins]
    exact h.kept
  · exact h.origin_le
  · rw [places_set hk hcarried]
    exact h.places_le
  · exact h.content
  · intro m hm
    rcases List.mem_or_eq_of_mem_set hm with hm | hm
    exacts [h.hands m hm, (hholding m hm.symm).1]
  · intro j j' m m' hj hj' hcommand hid
    by_cases hij : i = j
    · subst hij
      by_contra hne
      have hm' := List.mem_of_getElem? (hother j' m' hne hj')
      have hblank := ((hholding m (hself m hj)).2 m' hm' hid.symm).1
      exact absurd hcommand (by simp [hblank])
    · by_cases hij' : i = j'
      · subst hij'
        have hm := List.mem_of_getElem? (hother j m hij hj)
        have hblank := ((hholding m' (hself m' hj')).2 m hm hid).2
        exact absurd hcommand (by simp [hblank])
      · exact h.alone j j' m m' (hother j m hij hj) (hother j' m' hij' hj') hcommand hid

/-- What does not touch the control stream keeps every command in its place. -/
theorem Kept.frame (h : Kept s ks) (hentries : s'.redis.control.entries = s.redis.control.entries)
    (hlast : s'.redis.control.lastId = s.redis.control.lastId)
    (hdelivered : s'.redis.control.delivered = s.redis.control.delivered)
    (hpending : s'.redis.control.pending = s.redis.control.pending) (horigin : s'.origin = s.origin)
    (hcommands : s'.commands = s.commands) : Kept s' ks := by
  have hundelivered : s'.redis.control.undelivered = s.redis.control.undelivered := by
    rw [Stream.undelivered, Stream.undelivered, hentries, hdelivered]
  have hplaces : places s' ks = places s ks := by
    rw [places, places, hundelivered, hpending]
  have horigins : origins s' ks = origins s ks := by
    rw [origins, origins, hplaces, horigin]
  constructor
  · rw [horigins]
    exact h.nodup
  · rw [horigins, hcommands]
    exact h.kept
  · rw [hlast, horigin]
    exact h.origin_le
  · rw [hplaces, hlast]
    exact h.places_le
  · rw [hundelivered, hpending, horigin, hcommands, hentries]
    exact h.content
  · intro m hm
    have hhand := h.hands m hm
    constructor
    · exact hdelivered ▸ hhand.le
    · exact hentries ▸ hhand.fields
    · rw [horigin, hcommands]
      exact hhand.isCommand
    · exact hpending ▸ hhand.pending
  · exact h.alone

/-! ## Reads -/

/-- A poll reads the oldest pending message, which no other poll has in hand as a command. -/
theorem Kept.readPending (h : Kept s ks) (hk : ks[i]? = some .idle) {m : Message}
    (hpending : m.id ∈ s.redis.control.pending)
    (hfields : m.fields = (s.redis.control.find m.id).getD .missing)
    (hother : ∀ m', .holding m' ∈ ks → m'.fields.isCommand → m'.id ≠ m.id) :
    Kept s (ks.set i (.holding m)) := by
  have hentry : ∀ f, (m.id, f) ∈ s.redis.control.entries → f = m.fields := by
    intro f hf
    rw [hfields, Stream.find_eq_some_iff.2 hf, Option.getD_some]
  refine h.set hk rfl fun m' hm' => ?_
  obtain rfl : m = m' := by injection hm'
  refine ⟨⟨s.redis.control.pending_le _ hpending, hentry, ?_, fun _ => hpending⟩, ?_⟩
  · intro horigin
    obtain ⟨f, hf, hcommand⟩ := h.content _ (.inr hpending) horigin
    rwa [← hentry f hf]
  · intro m' hm' hid
    have hblank : m'.fields.isCommand = false := by
      by_contra hne
      exact hother m' hm' (by simpa using hne) hid
    refine ⟨?_, hblank⟩
    cases hfind : s.redis.control.find m.id with
    | none =>
      rw [hfields, hfind]
      decide
    | some f =>
      have hf : (m'.id, f) ∈ s.redis.control.entries := by
        rw [hid]
        exact Stream.find_eq_some_iff.1 hfind
      rw [hfields, hfind, Option.getD_some, (h.hands m' hm').fields f hf]
      exact hblank

/-- A read of the next undelivered message makes it pending. -/
theorem Kept.deliver (h : Kept s ks) {control : Stream ControlFields} {count : ℕ}
    {given : List (ℕ × ControlFields)}
    (hread : s.redis.control.readNew count = some (control, given)) :
    Kept { s with redis := { s.redis with control } } ks := by
  obtain ⟨rfl, hentries, hlast, hpending, hundelivered, hle⟩ := Stream.of_readNew hread
  have hsplit := congrArg (List.map Prod.fst)
    (List.take_append_drop count s.redis.control.undelivered)
  rw [List.map_append] at hsplit
  have hplaces : places { s with redis := { s.redis with control } } ks = places s ks := by
    simp only [places, hundelivered, hpending, ← hsplit, ← Multiset.coe_add]
    abel
  constructor
  · rw [origins, hplaces]
    exact h.nodup
  · rw [origins, hplaces]
    exact h.kept
  · simp only [hlast]
    exact h.origin_le
  · rw [hplaces]
    simp only [hlast]
    exact h.places_le
  · simp only [hundelivered, hpending, hentries]
    intro j hj
    refine h.content j ?_
    rw [← hsplit]
    rcases hj with hj | hj
    · exact .inl (List.mem_append_right _ hj)
    · rcases List.mem_append.1 hj with hj | hj
      exacts [.inr hj, .inl (List.mem_append_left _ hj)]
  · intro m hm
    have hhand := h.hands m hm
    refine ⟨hhand.le.trans hle, ?_, hhand.isCommand, fun hcommand => ?_⟩
    · simp only [hentries]
      exact hhand.fields
    · simp only [hpending]
      exact List.mem_append_left _ (hhand.pending hcommand)
  · exact h.alone

/-- A poll reads the next undelivered message. -/
theorem Kept.readNew (h : Kept s ks) (hk : ks[i]? = some .nothingPending)
    {control : Stream ControlFields} {count : ℕ} {given : List (ℕ × ControlFields)}
    (hread : s.redis.control.readNew count = some (control, given)) {e : ℕ × ControlFields}
    (he : e ∈ given) : Kept { s with redis := { s.redis with control } }
      (ks.set i (.holding ⟨e.1, e.2⟩)) := by
  have hdeliver := h.deliver hread
  obtain ⟨rfl, hentries, -, hpending, -, -⟩ := Stream.of_readNew hread
  have hundelivered := List.mem_of_mem_take he
  have hnew := Stream.lt_of_mem_undelivered hundelivered
  have hmem : e.1 ∈ control.pending := by
    rw [hpending]
    exact List.mem_append_right _ (List.mem_map_of_mem he)
  have hentry : ∀ f, (e.1, f) ∈ s.redis.control.entries → f = e.2 := by
    intro f hf
    have hfind := Stream.find_eq_some_iff.2 hf
    rw [Stream.find_eq_some_iff.2 (List.mem_of_mem_filter hundelivered)] at hfind
    exact (Option.some.inj hfind).symm
  refine hdeliver.set hk rfl fun m hm => ?_
  obtain rfl : Message.mk e.1 e.2 = m := by injection hm
  refine ⟨⟨control.pending_le _ hmem, ?_, ?_, fun _ => hmem⟩, ?_⟩
  · simp only [hentries]
    exact hentry
  · intro horigin
    obtain ⟨f, hf, hcommand⟩ := h.content _ (.inl (List.mem_map_of_mem hundelivered)) horigin
    rwa [← hentry f hf]
  · -- what other polls hold was delivered before
    intro m hm hid
    have hle := (h.hands m hm).le
    have hid : m.id = e.1 := hid
    omega

/-! ## Acknowledgement and publication -/

/-- A message that is not a command is none of the commands kept. -/
theorem Kept.not_command_of_blank (h : Kept s ks) {m : Message} (hm : .holding m ∈ ks)
    (hblank : m.fields.isCommand = false) : s.origin m.id ∉ s.commands := by
  intro horigin
  exact absurd ((h.hands m hm).isCommand horigin) (by simp [hblank])

/-- An acknowledged command is carried by the poll instead of pending. -/
theorem Kept.places_ack (h : Kept s ks) {m : Message} (hk : ks[i]? = some (.holding m))
    (hcommand : m.fields.isCommand) :
    places { s with redis := { s.redis with control := (s.redis.control.ack m.id).1 } }
      (ks.set i (.acked m)) = places s ks := by
  have hm := (h.hands m (List.mem_of_getElem? hk)).pending hcommand
  have hpending : m.id ::ₘ ((s.redis.control.ack m.id).1.pending : Multiset ℕ) =
      (s.redis.control.pending : Multiset ℕ) :=
    Multiset.coe_eq_coe.2 (Stream.pending_ack_perm hm)
  have hcarry : ((ks.set i (.acked m)).filterMap carried : Multiset ℕ) =
      (ks.filterMap carried : Multiset ℕ) + {m.id} := by
    have hset := filterMap_set hk (.acked m)
    rw [carried_acked hcommand] at hset
    simpa [carried] using hset
  rw [places, places, hcarry, ← hpending, ← Multiset.singleton_add]
  simp only [Stream.undelivered_ack]
  abel

/-- A command that is acknowledged goes from pending to carried, and another message is dropped. -/
theorem Kept.places_ack_le (h : Kept s ks) {m : Message} (hk : ks[i]? = some (.holding m)) :
    places { s with redis := { s.redis with control := (s.redis.control.ack m.id).1 } }
        (ks.set i (.acked m)) ≤ places s ks ∧
      ∀ j ∈ places s ks, s.origin j ∈ s.commands → j ∈ places { s with redis := { s.redis with
        control := (s.redis.control.ack m.id).1 } } (ks.set i (.acked m)) := by
  have hm := List.mem_of_getElem? hk
  by_cases hcommand : m.fields.isCommand
  · rw [h.places_ack hk hcommand]
    exact ⟨le_rfl, fun j hj _ => hj⟩
  · have hblank : m.fields.isCommand = false := by simpa using hcommand
    have hcarried : carried (.acked m) = carried (.holding m) := if_neg hcommand
    rw [places_set hk hcarried]
    refine ⟨?_, fun j hj horigin => ?_⟩
    · refine add_le_add_left (add_le_add_right ?_ _) _
      exact Multiset.coe_le.2 List.filter_sublist.subperm
    · have hne : j ≠ m.id := fun heq => h.not_command_of_blank hm hblank (heq ▸ horigin)
      rw [mem_places] at hj ⊢
      rcases hj with hj | hj | hj
      exacts [.inl hj, .inr (.inl (Stream.mem_pending_ack.2 ⟨hj, hne⟩)), .inr (.inr hj)]

/-- An acknowledgement executed for the message in hand. -/
theorem Kept.ack (h : Kept s ks) {m : Message} (hk : ks[i]? = some (.holding m)) :
    Kept { s with redis := { s.redis with control := (s.redis.control.ack m.id).1 } }
      (ks.set i (.acked m)) := by
  have hpending : ∀ j, j ∈ (s.redis.control.ack m.id).1.pending → j ∈ s.redis.control.pending :=
    fun j hj => (Stream.mem_pending_ack.1 hj).1
  have hother : ∀ {j : ℕ} {m' : Message}, (ks.set i (.acked m))[j]? = some (Phase.holding m') →
      i ≠ j ∧ ks[j]? = some (Phase.holding m') := getElem?_set_holding fun _ h => by cases h
  obtain ⟨hle, hstay⟩ := h.places_ack_le hk
  constructor
  · exact Multiset.nodup_of_le (Multiset.map_le_map hle) h.nodup
  · intro o ho
    obtain ⟨j, hj, rfl⟩ := mem_origins.1 (h.kept o ho)
    exact mem_origins.2 ⟨j, hstay j hj ho, rfl⟩
  · exact h.origin_le
  · exact fun j hj => h.places_le j (Multiset.mem_of_le hle hj)
  · exact fun j hj => h.content j (hj.imp_right (hpending j))
  · intro m' hm'
    obtain ⟨j, hj⟩ := List.mem_iff_getElem?.1 hm'
    obtain ⟨hij, hj⟩ := hother hj
    have hhand := h.hands m' (List.mem_of_getElem? hj)
    refine ⟨hhand.le, hhand.fields, hhand.isCommand, fun hcommand => ?_⟩
    refine Stream.mem_pending_ack.2 ⟨hhand.pending hcommand, fun hid => ?_⟩
    exact hij (h.alone j i m' m hj hk hcommand hid).symm
  · intro j j' m' m'' hj hj'
    exact h.alone j j' m' m'' (hother hj).2 (hother hj').2

/-- What is in hand is still so after an entry was added. -/
theorem InHand.add {m : Message} (h : InHand s m) {maxlen trim : ℕ} {fields : ControlFields}
    (hmax : 0 < maxlen) (hs' : s'.redis.control = s.redis.control.add maxlen trim fields)
    (hcommands : s'.origin m.id ∈ s'.commands → s.origin m.id ∈ s.commands) : InHand s' m := by
  have hle := h.le.trans s.redis.control.delivered_le
  constructor
  · rw [hs']
    exact h.le
  · intro f hf
    rw [hs', Stream.entries_add hmax] at hf
    rcases List.mem_append.1 hf with hf | hf
    · exact h.fields f (List.mem_of_mem_drop hf)
    · have hid : m.id = s.redis.control.lastId + 1 :=
        congrArg Prod.fst (List.mem_singleton.1 hf)
      omega
  · exact fun ho => h.isCommand (hcommands ho)
  · rw [hs']
    exact h.pending

/-- What a publish may carry: nothing, or a command that is published again. -/
def Publishes (k : Phase) : Prop := k = .idle ∨ ∃ m, k = .acked m ∧ m.fields.isCommand

theorem publishes_of_mayPublish {text : String} (h : MayPublish k text) : Publishes k := by
  refine h.imp_right ?_
  rintro ⟨m, hk, hcommand, -⟩
  exact ⟨m, hk, hcommand⟩

section Publish

variable {maxlen trim : ℕ} {fields : ControlFields} {redis : Redis}

/-- The places after a publish: the new entry for what was carried. -/
theorem places_publish (hk : ks[i]? = some k) (hphase : Publishes k) (hmax : 0 < maxlen)
    (hspares : s.redis.control.Spares maxlen trim)
    (hredis : redis.control = s.redis.control.add maxlen trim fields)
    (r : Option (Reply (.xadd maxlen fields))) :
    places (s.record k redis (.xadd maxlen fields)) (ks.set i (k.after (.xadd maxlen fields) r)) +
      ((carried k).toList : Multiset ℕ) = places s ks + {s.redis.control.lastId + 1} := by
  have hset := filterMap_set hk (k.after (.xadd maxlen fields) r)
  have hcarried : carried (k.after (.xadd maxlen fields) r) = none := by
    rcases hphase with rfl | ⟨m, rfl, -⟩ <;> rfl
  rw [hcarried, Option.toList_none, Multiset.coe_nil, add_zero] at hset
  have hundelivered : redis.control.undelivered =
      s.redis.control.undelivered ++ [(s.redis.control.lastId + 1, fields)] := by
    rw [hredis, Stream.undelivered_add hmax hspares]
  have hpending : redis.control.pending = s.redis.control.pending := by
    rw [hredis]
    rfl
  show ((redis.control.undelivered.map Prod.fst : List ℕ) : Multiset ℕ) +
    (redis.control.pending : Multiset ℕ) + _ + _ = _
  rw [add_assoc, hset, hundelivered, hpending, List.map_append, ← Multiset.coe_add, places]
  show _ + ({s.redis.control.lastId + 1} : Multiset ℕ) + _ + _ = _
  abel

theorem origin_publish (hle : j ≤ s.redis.control.lastId) :
    (s.record k redis (.xadd maxlen fields)).origin j = s.origin j :=
  Function.update_of_ne (by omega) _ _

theorem mem_places_carried {m : Message} (hk : ks[i]? = some (Phase.acked m))
    (hcommand : m.fields.isCommand) : m.id ∈ places s ks :=
  mem_places.2 (.inr (.inr (List.mem_filterMap.2
    ⟨_, List.mem_of_getElem? hk, carried_acked hcommand⟩)))

theorem Kept.originOfNew_le (h : Kept s ks) (hk : ks[i]? = some k) (hphase : Publishes k) :
    s.originOfNew k ≤ s.redis.control.lastId + 1 := by
  rcases hphase with rfl | ⟨m, rfl, hcommand⟩
  · exact le_rfl
  · exact (h.origin_le _ (h.places_le _ (mem_places_carried hk hcommand))).trans (Nat.le_succ _)

/-- The new entry is a new command, or stands for the one carried. -/
theorem Kept.origins_publish (h : Kept s ks) (hk : ks[i]? = some k) (hphase : Publishes k)
    (hmax : 0 < maxlen) (hspares : s.redis.control.Spares maxlen trim)
    (hredis : redis.control = s.redis.control.add maxlen trim fields)
    (r : Option (Reply (.xadd maxlen fields))) :
    let s' := s.record k redis (.xadd maxlen fields)
    let ks' := ks.set i (k.after (.xadd maxlen fields) r)
    s'.commands = s.commands ∧ origins s' ks' = origins s ks ∨
      s'.commands = s.commands ++ [s.redis.control.lastId + 1] ∧
        origins s' ks' = origins s ks + {s.redis.control.lastId + 1} := by
  intro s' ks'
  have hplaces := congrArg (Multiset.map s'.origin)
    (places_publish hk hphase hmax hspares hredis r)
  have hold : (places s ks).map s'.origin = origins s ks :=
    Multiset.map_congr rfl fun j hj => origin_publish (h.places_le j hj)
  have hnew : s'.origin (s.redis.control.lastId + 1) = s.originOfNew k :=
    Function.update_self _ _ _
  rw [Multiset.map_add, Multiset.map_add, hold, Multiset.map_singleton, hnew] at hplaces
  rcases hphase with rfl | ⟨m, rfl, hcommand⟩
  · refine .inr ⟨rfl, ?_⟩
    rw [show carried .idle = none from rfl, Option.toList_none, Multiset.coe_nil,
      Multiset.map_zero, add_zero] at hplaces
    exact hplaces
  · have hcarried : m.id ∈ places s ks := mem_places_carried hk hcommand
    refine .inl ⟨rfl, ?_⟩
    rw [carried_acked hcommand, Option.toList_some, Multiset.coe_singleton, Multiset.map_singleton,
      origin_publish (h.places_le _ hcarried)] at hplaces
    exact add_right_cancel hplaces

/-- A publish is a number of its own. -/
theorem Kept.lastId_succ_notMem (h : Kept s ks) :
    s.redis.control.lastId + 1 ∉ origins s ks := by
  intro hmem
  obtain ⟨j, hj, heq⟩ := mem_origins.1 hmem
  have hle := h.origin_le j (h.places_le j hj)
  omega

/-- What goes back to a command after a publish, and is not the new entry, did so before. -/
theorem Kept.mem_commands_of_publish (h : Kept s ks) (hk : ks[i]? = some k) (hphase : Publishes k)
    (hmax : 0 < maxlen) (hspares : s.redis.control.Spares maxlen trim)
    (hredis : redis.control = s.redis.control.add maxlen trim fields)
    (hle : j ≤ s.redis.control.lastId)
    (ho : (s.record k redis (.xadd maxlen fields)).origin j ∈
      (s.record k redis (.xadd maxlen fields)).commands) : s.origin j ∈ s.commands := by
  have horigin := h.origin_le j hle
  rw [origin_publish hle] at ho
  rcases h.origins_publish hk hphase hmax hspares hredis none with ⟨heq, -⟩ | ⟨heq, -⟩
  · rwa [← heq]
  · rw [heq] at ho
    refine (List.mem_append.1 ho).resolve_right fun hnew => ?_
    rw [List.mem_singleton] at hnew
    omega

/-- The entries of the commands stay through a publish, and the new entry is one. -/
theorem Kept.content_publish (h : Kept s ks) (hk : ks[i]? = some k) (hphase : Publishes k)
    (hmax : 0 < maxlen) (hspares : s.redis.control.Spares maxlen trim)
    (hredis : redis.control = s.redis.control.add maxlen trim fields)
    (hcommand : fields.isCommand)
    (hj : j ∈ redis.control.undelivered.map Prod.fst ∨ j ∈ redis.control.pending)
    (ho : (s.record k redis (.xadd maxlen fields)).origin j ∈
      (s.record k redis (.xadd maxlen fields)).commands) :
    ∃ f, (j, f) ∈ redis.control.entries ∧ f.isCommand := by
  rw [hredis, Stream.undelivered_add hmax hspares, List.map_append, List.mem_append,
    List.map_singleton, List.mem_singleton] at hj
  have hold : (j ∈ s.redis.control.undelivered.map Prod.fst ∨ j ∈ s.redis.control.pending) ∨
      j = s.redis.control.lastId + 1 := by
    rcases hj with (hj | hj) | hj
    exacts [.inl (.inl hj), .inr hj, .inl (.inr hj)]
  rcases hold with hold | rfl
  · have hle : j ≤ s.redis.control.lastId := by
      rcases hold with hold | hold
      · obtain ⟨e, he, rfl⟩ := List.mem_map.1 hold
        exact s.redis.control.entries_le e (List.mem_of_mem_filter he)
      · exact (s.redis.control.pending_le j hold).trans s.redis.control.delivered_le
    obtain ⟨f, hf, hfcommand⟩ := h.content j hold
      (h.mem_commands_of_publish hk hphase hmax hspares hredis hle ho)
    refine ⟨f, ?_, hfcommand⟩
    rw [hredis]
    refine Stream.mem_entries_add hmax hspares hf (hold.imp_left fun hmem => ?_)
    obtain ⟨e, he, rfl⟩ := List.mem_map.1 hmem
    have hlt := Stream.lt_of_mem_undelivered he
    exact hlt
  · refine ⟨fields, ?_, hcommand⟩
    rw [hredis, Stream.entries_add hmax]
    exact List.mem_append_right _ (List.mem_singleton_self _)

theorem Kept.publish (h : Kept s ks) (hk : ks[i]? = some k) (hphase : Publishes k)
    (hmax : 0 < maxlen) (hspares : s.redis.control.Spares maxlen trim)
    (hredis : redis.control = s.redis.control.add maxlen trim fields)
    (hcommand : fields.isCommand) (r : Option (Reply (.xadd maxlen fields))) :
    Kept (s.record k redis (.xadd maxlen fields))
      (ks.set i (k.after (.xadd maxlen fields) r)) := by
  have horigins := h.origins_publish hk hphase hmax hspares hredis r
  have hplaces := places_publish hk hphase hmax hspares hredis r
  have hlast : (s.record k redis (.xadd maxlen fields)).redis.control.lastId =
      s.redis.control.lastId + 1 := by
    show redis.control.lastId = _
    rw [hredis]
    rfl
  have holding : ∀ m, k.after (.xadd maxlen fields) r ≠ .holding m := by
    intro m hm
    rcases hphase with rfl | ⟨m', rfl, -⟩ <;> cases hm
  constructor
  · rcases horigins with ⟨-, heq⟩ | ⟨-, heq⟩
    · rw [heq]
      exact h.nodup
    · rw [heq, add_comm, Multiset.singleton_add, Multiset.nodup_cons]
      exact ⟨h.lastId_succ_notMem, h.nodup⟩
  · intro o ho
    rcases horigins with ⟨hsame, heq⟩ | ⟨hsame, heq⟩
    · rw [heq]
      exact h.kept o (hsame ▸ ho)
    · rw [heq, Multiset.mem_add, Multiset.mem_singleton]
      rw [hsame, List.mem_append, List.mem_singleton] at ho
      exact ho.imp_left (h.kept o)
  · intro j hj
    rw [hlast] at hj ⊢
    by_cases hle : j ≤ s.redis.control.lastId
    · have hold := h.origin_le j hle
      rw [origin_publish hle]
      omega
    · obtain rfl : j = s.redis.control.lastId + 1 := by omega
      have hnew : (s.record k redis (.xadd maxlen fields)).origin (s.redis.control.lastId + 1) =
          s.originOfNew k := Function.update_self _ _ _
      rw [hnew]
      exact h.originOfNew_le hk hphase
  · intro j hj
    rw [hlast]
    have hmem := Multiset.mem_add.2 (Or.inl hj : _ ∨ j ∈ ((carried k).toList : Multiset ℕ))
    rw [hplaces, Multiset.mem_add, Multiset.mem_singleton] at hmem
    rcases hmem with hmem | rfl
    · have hle := h.places_le j hmem
      omega
    · exact le_rfl
  · exact fun j hj ho => h.content_publish hk hphase hmax hspares hredis hcommand hj ho
  · intro m hm
    obtain ⟨j, hj⟩ := List.mem_iff_getElem?.1 hm
    have hhand := h.hands m (List.mem_of_getElem? (getElem?_set_holding holding hj).2)
    exact hhand.add hmax hredis (h.mem_commands_of_publish hk hphase hmax hspares hredis
      (hhand.le.trans s.redis.control.delivered_le))
  · intro j j' m m' hj hj'
    exact h.alone j j' m m' (getElem?_set_holding holding hj).2 (getElem?_set_holding holding hj').2

end Publish

/-! ## Runs -/

theorem set_same (hk : ks[i]? = some k) : ks.set i k = ks := by
  obtain ⟨hi, rfl⟩ := List.getElem?_eq_some_iff.1 hk
  exact List.set_getElem_self hi

/-- A call that was not executed. -/
theorem Kept.notExecuted (h : Kept s ks) (hk : ks[i]? = some k) {w : Choice} {c : Call}
    (hw : w.delivery = .notExecuted) (hallowed : Allowed k c) (hplace : KeepsPlace s ks k w c)
    {pendingNil : Bool} :
    Kept s (ks.set i (k.after c (s.redis.answer pendingNil w c).2)) := by
  have hset : Kept s (ks.set i k) := by rwa [set_same hk]
  cases c with
  | xreadgroup start count =>
    have hr : (s.redis.answer pendingNil w (.xreadgroup start count)).2 = none := by
      change (w.delivery.outcome s.redis _).2 = none
      rw [hw]
      rfl
    rw [hr]
    cases start with
    | pending => exact hset
    | new =>
      obtain ⟨rfl, -⟩ := hallowed
      exact h.set hk rfl fun m h => by cases h
  | xack id =>
    obtain ⟨m, rfl, rfl⟩ := hallowed
    have hblank : ¬ m.fields.isCommand := by
      intro hcommand
      have hheld := hplace hw
      rw [Phase.heldCommand, if_pos hcommand] at hheld
      cases hheld
    exact h.set hk (if_neg hblank) fun m' h => by cases h
  | xadd maxlen fields =>
    obtain rfl : k = .idle := hplace.1 hw
    exact h.set hk rfl fun m h => by cases h
  | _ => exact hset

/-- A read of what is pending that was executed; its reply may be lost. -/
theorem Kept.readPendingCall (h : Kept s ks) (hk : ks[i]? = some .idle) {w : Choice} {count : ℕ}
    (pendingNil : Bool) (hplace : KeepsPlace s ks .idle w (.xreadgroup .pending count)) :
    Kept s (ks.set i (Phase.idle.after (.xreadgroup .pending count)
      (s.redis.answer pendingNil w (.xreadgroup .pending count)).2)) := by
  cases hr : (s.redis.answer pendingNil w (.xreadgroup .pending count)).2 with
  | none =>
    show Kept s (ks.set i .idle)
    rwa [set_same hk]
  | some rows =>
    have hrows := flatten_readPending (reply_of_answer hr)
    have hanswered : w.delivery = .answered := by
      cases hd : w.delivery with
      | answered => rfl
      | _ =>
        change (w.delivery.outcome s.redis _).2 = some rows at hr
        rw [hd] at hr
        cases hr
    cases rows with
    | nil => exact h.set hk rfl fun m hm => by cases hm
    | cons row rows =>
      show Kept s (ks.set i ((List.flatten (row :: rows)).head?.elim .idle .holding))
      rw [hrows]
      cases htake : s.redis.control.pending.take count with
      | nil =>
        rw [List.map_nil, List.head?_nil, Option.elim_none, set_same hk]
        exact h
      | cons i rest =>
        have hi : i ∈ s.redis.control.pending.take count := htake ▸ List.mem_cons_self
        refine h.readPending hk (List.mem_of_mem_take hi) rfl fun m hm hcommand hid => ?_
        refine hplace hanswered i hi _ hm ?_
        rw [Phase.heldCommand, if_pos hcommand, hid]

/-- A read of what is new that was executed; its reply may be lost. -/
theorem Kept.readNewCall (h : Kept s ks) (hk : ks[i]? = some .nothingPending) {w : Choice}
    {count : ℕ} (pendingNil : Bool) :
    Kept { s with redis := (s.redis.execute pendingNil w.trim (.xreadgroup .new count)).1 }
      (ks.set i (Phase.nothingPending.after (.xreadgroup .new count)
        (s.redis.answer pendingNil w (.xreadgroup .new count)).2)) := by
  have hdone : ∀ {s : World}, Kept s ks → Kept s (ks.set i .done) :=
    fun h => h.set hk rfl fun m hm => by cases hm
  cases hread : s.redis.control.readNew count with
  | none =>
    have hexecute : s.redis.execute pendingNil w.trim (.xreadgroup .new count) =
        (s.redis, none) := by
      rw [Redis.execute, hread]
    have hr : (s.redis.answer pendingNil w (.xreadgroup .new count)).2 = none := by
      cases hr : (s.redis.answer pendingNil w (.xreadgroup .new count)).2 with
      | none => rfl
      | some rows =>
        have hsome := reply_of_answer hr
        rw [hexecute] at hsome
        cases hsome
    rw [hr, hexecute]
    exact hdone h
  | some given =>
    obtain ⟨control, given⟩ := given
    have hexecute : (s.redis.execute pendingNil w.trim (.xreadgroup .new count)).1 =
        { s.redis with control } := by
      simp only [Redis.execute, hread]
    rw [hexecute]
    cases hr : (s.redis.answer pendingNil w (.xreadgroup .new count)).2 with
    | none => exact hdone (h.deliver hread)
    | some rows =>
      have hrows := flatten_readNew (reply_of_answer hr)
      rw [← (Stream.of_readNew hread).1] at hrows
      show Kept _ (ks.set i ((List.flatten rows).head?.elim .done .holding))
      rw [hrows]
      cases hgiven : given with
      | nil => exact hdone (h.deliver hread)
      | cons e rest => exact h.readNew hk hread (hgiven ▸ List.mem_cons_self)

/-- Every call that keeps a command in one place keeps the invariant. -/
theorem Kept.serve (h : Kept s ks) (pendingNil : Bool) (hk : ks[i]? = some k) {w : Choice}
    {c : Call} (hallowed : Allowed k c) (hplace : KeepsPlace s ks k w c) :
    Kept (Control.serve pendingNil k w s c).1
      (ks.set i (Control.serve pendingNil k w s c).2.1) := by
  by_cases hw : w.delivery = .notExecuted
  · have hserve : (Control.serve pendingNil k w s c).1 = s := if_pos hw
    rw [hserve]
    exact h.notExecuted hk hw hallowed hplace
  · have hserve : (Control.serve pendingNil k w s c).1 =
        s.record k (s.redis.execute pendingNil w.trim c).1 c := by
      rw [← answer_of_executed pendingNil hw]
      exact if_neg hw
    rw [hserve]
    cases c with
    | xreadgroup start count =>
      cases start with
      | pending =>
        obtain ⟨rfl, -⟩ := hallowed
        exact h.readPendingCall hk pendingNil hplace
      | new =>
        obtain ⟨rfl, -⟩ := hallowed
        exact h.readNewCall hk pendingNil
    | xack id =>
      obtain ⟨m, rfl, rfl⟩ := hallowed
      exact h.ack hk
    | xadd maxlen fields =>
      obtain ⟨hmax, hcommand, hphase⟩ := hallowed
      exact h.publish hk (publishes_of_mayPublish hphase) hmax (hplace.2 hw) rfl hcommand
        (s.redis.answer pendingNil w (.xadd maxlen fields)).2
    | xgroupCreate =>
      show Kept _ (ks.set i k)
      rw [set_same hk]
      simp only [Redis.execute]
      cases hcreate : s.redis.control.createGroup with
      | none => exact h
      | some control =>
        obtain ⟨hentries, hlast, hdelivered, hpending⟩ := Stream.of_createGroup hcreate
        exact h.frame hentries hlast hdelivered hpending rfl rfl
    | _ =>
      show Kept _ (ks.set i k)
      rw [set_same hk]
      exact h.frame rfl rfl rfl rfl rfl rfl

/-- A new operation has no message. -/
theorem Kept.start (h : Kept s ks) : Kept s (ks ++ [.idle]) := by
  have hplaces : places s (ks ++ [.idle]) = places s ks := by
    rw [places, List.filterMap_append, show [Phase.idle].filterMap carried = [] from rfl,
      List.append_nil, places]
  have hholding : ∀ {j : ℕ} {m : Message}, (ks ++ [Phase.idle])[j]? = some (Phase.holding m) →
      ks[j]? = some (Phase.holding m) := by
    intro j m hj
    rw [List.getElem?_append] at hj
    split_ifs at hj with hlt
    · exact hj
    · have hmem := List.mem_of_getElem? hj
      simp at hmem
  constructor
  · rw [origins, hplaces]
    exact h.nodup
  · rw [origins, hplaces]
    exact h.kept
  · exact h.origin_le
  · rw [hplaces]
    exact h.places_le
  · exact h.content
  · intro m hm
    obtain ⟨j, hj⟩ := List.mem_iff_getElem?.1 hm
    exact h.hands m (List.mem_of_getElem? (hholding hj))
  · intro j j' m m' hj hj'
    exact h.alone j j' m m' (hholding hj) (hholding hj')

/-- What is undelivered and what is pending are different messages. -/
theorem undelivered_append_pending_nodup (control : Stream ControlFields) :
    (control.undelivered.map Prod.fst ++ control.pending).Nodup := by
  refine List.nodup_append.2 ⟨control.undelivered_asc.imp fun h => h.ne,
    control.pending_asc.imp fun h => h.ne, fun i hi j hj heq => ?_⟩
  obtain ⟨e, he, rfl⟩ := List.mem_map.1 hi
  have hlt := Stream.lt_of_mem_undelivered he
  have hle := control.pending_le j hj
  omega

theorem of_mem_commandsOf {control : Stream ControlFields} {i : ℕ} (hi : i ∈ commandsOf control) :
    ∃ f, (i, f) ∈ control.entries ∧ (control.delivered < i ∨ i ∈ control.pending) ∧
      f.isCommand := by
  obtain ⟨e, he, rfl⟩ := List.mem_map.1 hi
  obtain ⟨he, hplace, hcommand⟩ := by simpa using List.mem_filter.1 he
  exact ⟨e.2, he, hplace, hcommand⟩

theorem kept_start (redis : Redis) (addedAt : ℕ → ℚ) :
    Kept (start redis addedAt).shared (start redis addedAt).known := by
  have hplaces : places (start redis addedAt).shared (start redis addedAt).known =
      ((redis.control.undelivered.map Prod.fst ++ redis.control.pending : List ℕ) :
        Multiset ℕ) := by
    simp [places, start, Pool.known]
  have horigins : origins (start redis addedAt).shared (start redis addedAt).known =
      places (start redis addedAt).shared (start redis addedAt).known := Multiset.map_id _
  constructor
  · rw [horigins, hplaces]
    exact Multiset.coe_nodup.2 (undelivered_append_pending_nodup redis.control)
  · intro i hi
    obtain ⟨f, hf, hplace, -⟩ := of_mem_commandsOf hi
    rw [horigins, hplaces, Multiset.mem_coe, List.mem_append]
    exact hplace.imp_left fun hlt =>
      List.mem_map_of_mem (List.mem_filter.2 ⟨hf, decide_eq_true hlt⟩)
  · exact fun i hi => hi
  · intro i hi
    rw [hplaces, Multiset.mem_coe, List.mem_append] at hi
    rcases hi with hi | hi
    · obtain ⟨e, he, rfl⟩ := List.mem_map.1 hi
      exact redis.control.entries_le e (List.mem_of_mem_filter he)
    · exact (redis.control.pending_le i hi).trans redis.control.delivered_le
  · intro i _ hi
    obtain ⟨f, hf, -, hf'⟩ := of_mem_commandsOf hi
    exact ⟨f, hf, hf'⟩
  · intro m hm
    cases hm
  · intro i j m m' hi
    cases hi

theorem ok_run (pendingNil : Bool) (redis : Redis) (addedAt : ℕ → ℚ)
    {evs : List (Event Choice ServerEvent Operation)}
    (hevs : Runs.Along (Pool.step (system pendingNil)) (start redis addedAt)
      (fun _ pool e => pool.CallMeets KeepsPlace e) evs) :
    (Runs.run (Pool.step (system pendingNil)) (start redis addedAt) evs).Ok protocol Answers
      Kept := by
  refine Pool.Ok.run (fun op => follows_program op) (fun s ks op h => h.start) ?_ ?_ ?_ hevs
  · intro s ks e h
    cases e with
    | expire => exact h.frame rfl rfl rfl rfl rfl rfl
    | delay d => exact h.frame rfl rfl rfl rfl rfl rfl
  · intro s ks i k w c h hk hallowed hplace
    exact ⟨reply_serve pendingNil k w s c, h.serve pendingNil hk hallowed hplace⟩
  · exact ⟨fun t ht => absurd ht List.not_mem_nil, kept_start redis addedAt⟩

theorem nodup_carried {P : Phase → Option ℕ} (h : (ks.filterMap P).Nodup) {k k' : Phase} {o : ℕ}
    (hk : ks[i]? = some k) (hk' : ks[j]? = some k') (ho : P k = some o) (ho' : P k' = some o) :
    i = j := by
  rw [List.Nodup, List.pairwise_filterMap, List.pairwise_iff_getElem] at h
  obtain ⟨hi, rfl⟩ := List.getElem?_eq_some_iff.1 hk
  obtain ⟨hj, rfl⟩ := List.getElem?_eq_some_iff.1 hk'
  rcases lt_trichotomy i j with hlt | heq | hlt
  · exact absurd rfl (h i j hi hj hlt o ho o ho')
  · exact heq
  · exact absurd rfl (h j i hj hi hlt o ho' o ho)

/-- A poll that returned a command carries it. -/
theorem Returned.carried {t : Thread Call Reply Phase Answer} {o : ℕ} (h : Returned s t o)
    (hfollows : Follows protocol Answers t.known t.program) :
    (Control.carried t.known).map s.origin = some o := by
  obtain ⟨m, hknown, rfl, hret⟩ := h
  rw [hret, hknown] at hfollows
  obtain ⟨m', hm', hcommand, -⟩ := hfollows
  obtain rfl : m = m' := by injection hm'
  rw [hknown, carried_acked hcommand, Option.map_some]

/-- What a poll carries it returned, or it publishes it again. -/
theorem returned_or_requeues {t : Thread Call Reply Phase Answer} {i : ℕ}
    (hfollows : Follows protocol Answers t.known t.program) (h : carried t.known = some i) :
    Returned s t (s.origin i) ∨ Requeues s t (s.origin i) := by
  obtain ⟨k, p⟩ := t
  cases k with
  | acked m =>
    have hcommand : m.fields.isCommand := by
      by_contra hblank
      rw [show carried (.acked m) = none from if_neg hblank] at h
      cases h
    obtain rfl : m.id = i := by
      rw [carried_acked hcommand] at h
      exact Option.some.inj h
    cases p with
    | call c next =>
      refine .inr ⟨?_, rfl⟩
      rw [carried_acked hcommand, Option.map_some]
    | ret a =>
      rw [follows_ret] at hfollows
      cases a with
      | done ok => exact absurd rfl (hfollows m)
      | runStatus suspended interval => exact absurd rfl (hfollows m)
      | command cmd =>
        cases cmd with
        | none => exact absurd hcommand (by simp [hfollows m rfl])
        | some cmd =>
          have hcmd : cmd = normalizeCommand m.fields.text := by
            obtain ⟨m', hm', -, hcmd⟩ := hfollows
            rwa [Phase.acked.inj hm']
          rw [hcmd]
          exact .inl ⟨m, rfl, rfl, rfl⟩
  | _ => cases h

/-- Two polls that carry one command are one poll. -/
theorem Kept.carries_once {pool : Pool Call Reply Phase World Answer}
    (h : Kept pool.shared pool.known) {t t' : Thread Call Reply Phase Answer} {o : ℕ}
    (hi : pool.threads[i]? = some t) (hj : pool.threads[j]? = some t')
    (ho : (carried t.known).map pool.shared.origin = some o)
    (ho' : (carried t'.known).map pool.shared.origin = some o) : i = j := by
  have hnodup := h.nodup
  rw [origins, places, Multiset.map_add, Multiset.nodup_add] at hnodup
  have hnodup := hnodup.2.1
  rw [Multiset.map_coe, Multiset.coe_nodup, List.map_filterMap] at hnodup
  have hknown : pool.known[i]? = some t.known := by simp [Pool.known, hi]
  have hknown' : pool.known[j]? = some t'.known := by simp [Pool.known, hj]
  exact nodup_carried hnodup hknown hknown' ho ho'

/-- A command that a poll carries is neither undelivered nor pending. -/
theorem Kept.not_stored_of_carried (h : Kept s ks) {i : ℕ} (hk : k ∈ ks)
    (hcarried : carried k = some i) {o : ℕ} (ho : s.origin i = o) :
    (∀ e ∈ s.redis.control.undelivered, s.origin e.1 ≠ o) ∧
      ∀ j ∈ s.redis.control.pending, s.origin j ≠ o := by
  have hnodup := h.nodup
  rw [origins, places, Multiset.map_add, Multiset.nodup_add] at hnodup
  have hmem : o ∈ (ks.filterMap carried : Multiset ℕ).map s.origin :=
    Multiset.mem_map.2 ⟨i, List.mem_filterMap.2 ⟨k, hk, hcarried⟩, ho⟩
  have hstored : ∀ j ∈ ((s.redis.control.undelivered.map Prod.fst : List ℕ) : Multiset ℕ) +
      (s.redis.control.pending : Multiset ℕ), s.origin j ≠ o := by
    intro j hj heq
    exact Multiset.disjoint_left.1 hnodup.2.2 (Multiset.mem_map.2 ⟨j, hj, heq⟩) hmem
  exact ⟨fun e he => hstored _ (Multiset.mem_add.2 (.inl (List.mem_map_of_mem he))),
    fun j hj => hstored _ (Multiset.mem_add.2 (.inr hj))⟩

/-- In every run whose calls all keep a command in one place, from any content of Redis, every
command is returned at most once and none is lost, in exactly the states where no poll stands
between the acknowledgement of a command and the publish that puts it back. -/
theorem controlLaw_run (pendingNil : Bool) (redis : Redis) (addedAt : ℕ → ℚ)
    (evs : List (Event Choice ServerEvent Operation))
    (hevs : Runs.Along (Pool.step (system pendingNil)) (start redis addedAt)
      (fun _ pool e => pool.CallMeets KeepsPlace e) evs) :
    let pool := Runs.run (Pool.step (system pendingNil)) (start redis addedAt) evs
    ControlLaw pool ↔
      ∀ o ∈ pool.shared.commands, ∀ t ∈ pool.threads, ¬ Requeues pool.shared t o := by
  intro pool
  have hok : pool.Ok protocol Answers Kept := ok_run pendingNil redis addedAt hevs
  generalize pool = pool at hok
  have hkept := hok.inv
  constructor
  · rintro hlaw o ho t ht ⟨hcarries, hresult⟩
    obtain ⟨m, hm, horigin⟩ := Option.map_eq_some_iff.1 hcarries
    have hstored := hkept.not_stored_of_carried (List.mem_map_of_mem ht) hm horigin
    rcases hlaw.kept o ho with ⟨t', ht', hret⟩ | ⟨e, he, heq⟩ | ⟨i, hi, heq⟩
    · -- the poll that returned the command is the one that publishes it again
      obtain ⟨i, hi⟩ := List.mem_iff_getElem?.1 ht
      obtain ⟨j, hj⟩ := List.mem_iff_getElem?.1 ht'
      obtain rfl := hkept.carries_once hi hj hcarries (hret.carried (hok.follows t' ht'))
      obtain rfl : t = t' := Option.some.inj (hi.symm.trans hj)
      obtain ⟨m', -, -, hprogram⟩ := hret
      rw [hprogram] at hresult
      cases hresult
    · exact hstored.1 e he heq
    · exact hstored.2 i hi heq
  · intro hnone
    constructor
    · intro i j t t' o hi hj hret hret'
      exact hkept.carries_once hi hj
        (hret.carried (hok.follows t (List.mem_of_getElem? hi)))
        (hret'.carried (hok.follows t' (List.mem_of_getElem? hj)))
    · intro o ho
      obtain ⟨i, hi, rfl⟩ := mem_origins.1 (hkept.kept o ho)
      rcases mem_places.1 hi with hi | hi | hi
      · obtain ⟨e, he, rfl⟩ := List.mem_map.1 hi
        exact .inr (.inl ⟨e, he, rfl⟩)
      · exact .inr (.inr ⟨i, hi, rfl⟩)
      · obtain ⟨k, hk, hcarried⟩ := List.mem_filterMap.1 hi
        obtain ⟨t, ht, rfl⟩ := List.mem_map.1 hk
        rcases returned_or_requeues (hok.follows t ht) hcarried with hret | hreq
        exacts [.inl ⟨t, ht, hret⟩, absurd hreq (hnone _ ho t ht)]

/-- A stop command that was delivered and not acknowledged. -/
def samplePendingStop : Redis where
  clock := 100
  state := []
  control := ((Stream.empty.add 500 0 ⟨some "stop", some "api", some 40⟩).createGroup.bind
    fun control => control.readNew 1).elim .empty Prod.fst

/-- A poll that may be told to consume only some commands. -/
def samplePoll (consumeOnly : Option (List String)) : Event Choice ServerEvent Operation :=
  .start (.pollControl ⟨true, true⟩ consumeOnly)

/-- A poll that does not want the stop has it in hand after the `XACK`, where no other can read it,
and puts it back two calls later. -/
theorem controlLaw_run_requeue :
    (¬ ControlLaw (Runs.run (Pool.step (system false)) (start samplePendingStop fun _ => 40)
      (samplePoll (some ["flatten"]) :: List.replicate 4 (.step 0 .ok)))) ∧
    ControlLaw (Runs.run (Pool.step (system false)) (start samplePendingStop fun _ => 40)
      (samplePoll (some ["flatten"]) :: List.replicate 6 (.step 0 .ok))) := by
  constructor
  · intro h
    exact absurd ((controlLaw_run false _ _ _ (by decide +kernel)).1 h) (by decide +kernel)
  · exact (controlLaw_run false _ _ _ (by decide +kernel)).2 (by decide +kernel)

/-- Two polls read the stop before either acknowledged it, and both return it. -/
theorem not_controlLaw_twoPolls :
    ¬ ControlLaw (Runs.run (Pool.step (system false)) (start samplePendingStop fun _ => 40)
      (samplePoll none :: samplePoll none ::
        (List.replicate 4 [.step 0 .ok, .step 1 .ok]).flatten)) := by
  intro h
  generalize hpool : Runs.run (Pool.step (system false)) _ _ = pool at h
  let m : Message := ⟨1, ⟨some "stop", some "api", some 40⟩⟩
  have hthreads : pool.threads.map (fun t => (t.known, t.program.result)) =
      List.replicate 2 (.acked m, some (.command (some (normalizeCommand m.fields.text)))) := by
    rw [← hpool]
    decide +kernel
  have hreturned : ∀ i < 2, ∃ t, pool.threads[i]? = some t ∧
      Returned pool.shared t (pool.shared.origin 1) := by
    intro i hi
    have hget := congrArg (fun l => l[i]?) hthreads
    rw [List.getElem?_map, List.getElem?_replicate_of_lt hi, Option.map_eq_some_iff] at hget
    obtain ⟨t, ht, heq⟩ := hget
    obtain ⟨hknown, hret⟩ := Prod.mk.inj heq
    exact ⟨t, ht, m, hknown, rfl, Program.eq_ret_of_result hret⟩
  obtain ⟨t, ht, hret⟩ := hreturned 0 (by decide)
  obtain ⟨t', ht', hret'⟩ := hreturned 1 (by decide)
  exact absurd (h.once 0 1 t t' _ ht ht' hret hret') (by decide)

end Persistence.Daemon.Control
