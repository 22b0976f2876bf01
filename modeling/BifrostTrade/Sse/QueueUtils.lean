import BifrostTrade.Lib.Runs
import Mathlib.Algebra.Order.Ring.Int

/-!
# The queues of the event streams

`put_nowait_drop_oldest` of `sse/queue_utils.py`: a producer puts an item in a bounded queue and
drops from its front until the item fits.  Between such puts a consumer takes items.
-/

namespace Sse

open Runs

variable {α : Type*}

/-! ## Queues -/

/-- `asyncio.Queue`: without a bound where `maxsize` is not positive. -/
structure Queue (α : Type*) where
  maxsize : ℤ
  items : List α

namespace Queue

/-- A queue without items. -/
def empty (maxsize : ℤ) : Queue α := ⟨maxsize, []⟩

/-- `full()`. -/
def Full (q : Queue α) : Prop := 0 < q.maxsize ∧ q.maxsize ≤ q.items.length

instance (q : Queue α) : Decidable q.Full := inferInstanceAs (Decidable (_ ∧ _))

/-- `none` where it raises `QueueFull`. -/
def putNowait (q : Queue α) (item : α) : Option (Queue α) :=
  if q.Full then none else some { q with items := q.items ++ [item] }

/-- `none` where it raises `QueueEmpty`. -/
def getNowait (q : Queue α) : Option (α × Queue α) :=
  match q.items with
  | [] => none
  | item :: rest => some (item, { q with items := rest })

end Queue

/-- The rounds of the loop; `none` where they do not suffice. -/
def dropOldestRounds : ℕ → Queue α → α → Option (Queue α)
  | 0, _, _ => none
  | rounds + 1, q, item =>
      match q.putNowait item with
      | some q' => some q'
      | none =>
        match q.getNowait with
        | some (_, q') => dropOldestRounds rounds q' item
        | none => dropOldestRounds rounds q item

/-- `put_nowait_drop_oldest`; there are always rounds enough (`dropOldestRounds_eq_some`). -/
def putNowaitDropOldest (q : Queue α) (item : α) : Queue α :=
  (dropOldestRounds (q.items.length + 1) q item).getD q

/-! ## What a put does -/

/-- The put drops items from the front, where it has to, and adds its own. -/
structure Put (q q' : Queue α) (item : α) (old kept : List α) : Prop where
  before : q.items = old ++ kept
  after : q'.items = kept ++ [item]
  bound : q'.maxsize = q.maxsize
  fits : 0 < q.maxsize → (q'.items.length : ℤ) ≤ q.maxsize
  /-- Nothing is dropped from a queue that is not full. -/
  needed : ¬ q.Full → old = []

variable {q q' : Queue α} {item : α}

theorem Queue.Full.exists_cons (h : q.Full) : ∃ oldest rest, q.items = oldest :: rest := by
  refine List.exists_cons_of_ne_nil fun hnil => ?_
  obtain ⟨hpos, hle⟩ := h
  rw [hnil, List.length_nil] at hle
  exact absurd hpos (not_lt_of_ge hle)

/-- The loop returns after as many rounds as there are items, and one. -/
theorem dropOldestRounds_eq_some {rounds : ℕ} (item : α) (h : q.items.length < rounds) :
    ∃ q' old kept, dropOldestRounds rounds q item = some q' ∧ Put q q' item old kept := by
  induction rounds generalizing q with
  | zero => exact absurd h (Nat.not_lt_zero _)
  | succ rounds ih =>
    rw [dropOldestRounds, Queue.putNowait]
    by_cases hfull : q.Full
    · rw [if_pos hfull]
      obtain ⟨oldest, rest, hitems⟩ := hfull.exists_cons
      have hlt : rest.length < rounds := by
        rw [hitems, List.length_cons] at h
        omega
      obtain ⟨q', old, kept, hround, hput⟩ := @ih { q with items := rest } hlt
      refine ⟨q', oldest :: old, kept, ?_, ?_, hput.after, hput.bound, hput.fits,
        absurd hfull⟩
      · rw [Queue.getNowait, hitems]
        exact hround
      · rw [hitems]
        exact congrArg (oldest :: ·) hput.before
    · rw [if_neg hfull]
      refine ⟨_, [], q.items, rfl, rfl, rfl, rfl, fun hpos => ?_, fun _ => rfl⟩
      have hroom : ¬ q.maxsize ≤ q.items.length := fun hle => hfull ⟨hpos, hle⟩
      rw [List.length_append, List.length_singleton]
      omega

theorem put_putNowaitDropOldest (q : Queue α) (item : α) :
    ∃ old kept, Put q (putNowaitDropOldest q item) item old kept := by
  obtain ⟨q', old, kept, hrounds, hput⟩ :=
    dropOldestRounds_eq_some item (Nat.lt_succ_self q.items.length)
  refine ⟨old, kept, ?_⟩
  rw [putNowaitDropOldest, hrounds]
  exact hput

/-! ## Runs -/

/-- What happens to the queue of a stream. -/
inductive Event (α : Type*) where
  | put (item : α)
  | get

/-- The queue, and what the consumer took from it. -/
structure Stream (α : Type*) where
  queue : Queue α
  taken : List α

/-- Before the first event. -/
def Stream.start (maxsize : ℤ) : Stream α := ⟨.empty maxsize, []⟩

/-- An event of a stream. -/
def step (s : Stream α) : Event α → Stream α
  | .put item => { s with queue := putNowaitDropOldest s.queue item }
  | .get =>
      match s.queue.getNowait with
      | none => s
      | some (item, q) => ⟨q, s.taken ++ [item]⟩

/-- The item that an event puts. -/
def Event.sent : Event α → Option α
  | .put item => some item
  | .get => none

/-- The items that were put. -/
def puts (evs : List (Event α)) : List α := evs.filterMap Event.sent

theorem puts_put (evs : List (Event α)) (item : α) :
    puts (evs ++ [.put item]) = puts evs ++ [item] := by
  rw [puts, List.filterMap_append]
  rfl

theorem puts_get (evs : List (Event α)) : puts (evs ++ [.get]) = puts evs := by
  rw [puts, List.filterMap_append]
  exact List.append_nil _

/-- The items that are gone from the queue, in the order they were put. -/
structure Inv (maxsize : ℤ) (pre : List (Event α)) (s : Stream α) (gone : List α) : Prop where
  bound : s.queue.maxsize = maxsize
  puts : puts pre = gone ++ s.queue.items
  taken : s.taken.Sublist gone
  bounded : 0 < maxsize → (s.queue.items.length : ℤ) ≤ maxsize

section Step

variable {maxsize : ℤ} {pre : List (Event α)} {s : Stream α} {gone : List α}

theorem Inv.put (h : Inv maxsize pre s gone) (item : α) :
    ∃ old, Inv maxsize (pre ++ [.put item]) (step s (.put item)) (gone ++ old) ∧
      (¬ s.queue.Full → old = []) := by
  obtain ⟨old, kept, hput⟩ := put_putNowaitDropOldest s.queue item
  refine ⟨old, ⟨hput.bound.trans h.bound, ?_, ?_, fun hpos => ?_⟩, hput.needed⟩
  · rw [puts_put, h.puts, hput.before, step, hput.after]
    simp only [List.append_assoc]
  · exact h.taken.trans (List.sublist_append_left gone old)
  · exact (hput.fits (h.bound ▸ hpos)).trans_eq h.bound

theorem Inv.get (h : Inv maxsize pre s gone) :
    ∃ new, Inv maxsize (pre ++ [.get]) (step s .get) (gone ++ new) ∧
      (step s .get).taken = s.taken ++ new := by
  cases hitems : s.queue.items with
  | nil =>
    have hstep : step s .get = s := by rw [step, Queue.getNowait, hitems]
    rw [hstep, ← List.append_nil gone]
    refine ⟨[], ⟨h.bound, ?_, ?_, h.bounded⟩, (List.append_nil _).symm⟩
    · rw [puts_get, h.puts, List.append_nil, List.append_nil]
    · rw [List.append_nil, List.append_nil]
      exact h.taken
  | cons item rest =>
    have hstep : step s .get = ⟨{ s.queue with items := rest }, s.taken ++ [item]⟩ := by
      rw [step, Queue.getNowait, hitems]
    rw [hstep]
    refine ⟨[item], ⟨h.bound, ?_, h.taken.append (List.Sublist.refl _), fun hpos => ?_⟩, rfl⟩
    · rw [puts_get, h.puts, hitems, List.append_assoc]
      rfl
    · have hle := h.bounded hpos
      rw [hitems, List.length_cons] at hle
      dsimp only
      omega

end Step

/-- No put of the run finds the queue full. -/
def KeepsUp (_ : List (Event α)) (s : Stream α) (e : Event α) : Prop :=
  e.sent.isSome = true → ¬ s.queue.Full

theorem exists_gone (maxsize : ℤ) (evs : List (Event α)) :
    ∃ gone, Inv maxsize evs (run step (.start maxsize) evs) gone ∧
      (Along step (.start maxsize) KeepsUp evs →
        (run step (.start maxsize) evs).taken = gone) := by
  induction evs using List.reverseRecOn with
  | nil => exact ⟨[], ⟨rfl, rfl, List.Sublist.refl _, fun hpos => hpos.le⟩, fun _ => rfl⟩
  | append_singleton evs e ih =>
    obtain ⟨gone, hinv, htaken⟩ := ih
    rw [run_snoc]
    cases e with
    | put item =>
      obtain ⟨old, hput, hneeded⟩ := hinv.put item
      refine ⟨_, hput, fun h => ?_⟩
      obtain ⟨hevs, hroom⟩ := (along_snoc evs _).1 h
      rw [hneeded (hroom rfl), List.append_nil]
      exact htaken hevs
    | get =>
      obtain ⟨new, hget, hnew⟩ := hinv.get
      refine ⟨_, hget, fun h => ?_⟩
      rw [hnew, htaken ((along_snoc evs _).1 h).1]

/-- What a stream keeps of what is put in it. -/
structure StreamLaw (maxsize : ℤ) (evs : List (Event α)) : Prop where
  bounded : 0 < maxsize → ((run step (.start maxsize) evs).queue.items.length : ℤ) ≤ maxsize
  /-- The queue holds the newest items. -/
  newest : (run step (.start maxsize) evs).queue.items <:+ puts evs
  /-- Nothing comes twice or out of order. -/
  ordered : ((run step (.start maxsize) evs).taken ++
    (run step (.start maxsize) evs).queue.items).Sublist (puts evs)
  /-- A consumer that keeps up loses nothing. -/
  complete : Along step (.start maxsize) KeepsUp evs →
    (run step (.start maxsize) evs).taken ++ (run step (.start maxsize) evs).queue.items = puts evs
  /-- The loop of a put that comes next returns. -/
  returns : ∀ item, ∃ q, dropOldestRounds ((run step (.start maxsize) evs).queue.items.length + 1)
    (run step (.start maxsize) evs).queue item = some q
  /-- What was put just now is there. -/
  arrived : ∀ pre item, evs = pre ++ [.put item] →
    (run step (.start maxsize) evs).queue.items.getLast? = some item

/-- **A stream keeps the newest.**  Over any run of puts and takes the loop of each put returns, the
queue stays within its bound and holds the newest items, and the consumer sees the items in their
order, all of them where no put finds the queue full. -/
theorem stream_law (maxsize : ℤ) (evs : List (Event α)) : StreamLaw maxsize evs := by
  obtain ⟨gone, hinv, htaken⟩ := exists_gone maxsize evs
  refine ⟨hinv.bounded, ⟨gone, hinv.puts.symm⟩, ?_, fun h => ?_, fun item => ?_, ?_⟩
  · rw [hinv.puts]
    exact hinv.taken.append (List.Sublist.refl _)
  · rw [htaken h, hinv.puts]
  · obtain ⟨q, -, -, hq, -⟩ := dropOldestRounds_eq_some item (Nat.lt_succ_self _)
    exact ⟨q, hq⟩
  · rintro pre item rfl
    obtain ⟨old, kept, hput⟩ :=
      put_putNowaitDropOldest (run step (.start maxsize) pre).queue item
    rw [run_snoc, step, hput.after, List.getLast?_concat]

example : (run step (.start 2) [.put 1, .put 2, .put 3, .get, .get]).taken = [2, 3] := by decide

end Sse
