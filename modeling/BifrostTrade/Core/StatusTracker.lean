import BifrostTrade.Core.MessageSurvives
import BifrostTrade.Lib.Changes
import Mathlib.Data.List.Chain

/-!
# Which connection changes are announced

`IbConnectionStatusTracker` of `core/message_center.py` keeps the last status of every slot and
publishes an event when a status changes.  The status is kept before the event is published, and a
failed write to the stream is swallowed, so an event that was not written is never written later.
-/

namespace Core.MessageCenter

open Py Runs Changes

/-- The arguments of `update`. -/
structure StatusUpdate where
  slot : String
  status : String
  clientId : Option ℤ
  account : Option String
  reason : Option String
  occurredAt : Option Double

namespace StatusUpdate

variable (u : StatusUpdate)

/-- The slot, as `_sanitize_slot` leaves it. -/
def slotName : String := sanitizeSlot (some u.slot)

/-- The status that is reported, in lower case. -/
def nextStatus : String := orDefault (lower (strip (orDefault u.status "unknown"))) "unknown"

/-- What `build_ib_connection_event` is called with. -/
def eventArgs (service statusFrom : String) : IbConnectionArgs where
  service := service
  slot := u.slotName
  clientId := u.clientId
  account := u.account
  statusFrom := statusFrom
  statusTo := u.nextStatus
  reason := u.reason
  occurredAt := u.occurredAt

end StatusUpdate

/-- `IbConnectionStatusTracker`. -/
structure IbConnectionStatusTracker where
  service : String
  lastStatusBySlot : List (String × String)

/-- `IbConnectionStatusTracker.update`, up to the event that it builds and publishes. -/
def IbConnectionStatusTracker.update (t : IbConnectionStatusTracker) (u : StatusUpdate) :
    IbConnectionStatusTracker × Option IbConnectionArgs :=
  let prevStatus := t.lastStatusBySlot.lookup u.slotName
  ({ t with lastStatusBySlot := Dict.setItem t.lastStatusBySlot u.slotName u.nextStatus },
    if prevStatus = some u.nextStatus then none
    else if prevStatus = none ∧ u.nextStatus ≠ "connected" then none
    else some (u.eventArgs t.service (orDefault (textOrEmpty prevStatus) "unknown")))

/-! ## Runs -/

/-- A call of `update`: the id and the time that its event would get, and whether the write to the
stream works. -/
structure Cast where
  update : StatusUpdate
  uuid : UuidHex
  now : ℚ
  written : Bool

/-- An event that a call asked for. -/
structure Attempt where
  cast : Cast
  args : IbConnectionArgs

/-- What a call adds to the stream. -/
def Attempt.event? (a : Attempt) : Option SystemMessageEvent :=
  if a.cast.written then buildIbConnectionEvent a.cast.uuid a.cast.now a.args else none

/-- The tracker, and the events asked for so far. -/
structure Tracking where
  tracker : IbConnectionStatusTracker
  attempts : List Attempt

/-- A report, and the announcement that it makes due. -/
def Tracking.step (s : Tracking) (c : Cast) : Tracking where
  tracker := (s.tracker.update c.update).1
  attempts := s.attempts ++ ((s.tracker.update c.update).2.map fun args => ⟨c, args⟩).toList

/-- A tracker without a status. -/
def Tracking.fresh (service : String) : Tracking := ⟨⟨service, []⟩, []⟩

/-- The events of a slot that were added to the stream. -/
def Tracking.streamOf (s : Tracking) (slot : String) : List SystemMessageEvent :=
  (s.attempts.filterMap Attempt.event?).filter (·.slot = slot)

/-- The slot that is reported of. -/
abbrev Cast.slot (c : Cast) : String := c.update.slotName

/-- The status that is reported. -/
abbrev Cast.status (c : Cast) : String := c.update.nextStatus

/-- The status that an event starts from. -/
def statusOrigin (prevStatus : Option String) : String :=
  orDefault (textOrEmpty prevStatus) "unknown"

/-- What a call asks for after a status. -/
def Attempt.after (service : String) (x : Cast × String) : Attempt where
  cast := x.1
  args := x.1.update.eventArgs service x.2

theorem orDefault_ne_empty {text default : String} (h : default ≠ "") :
    orDefault text default ≠ "" := by
  unfold orDefault
  split_ifs with htext
  · exact h
  · exact htext

theorem statusOrigin_status (c : Cast) : statusOrigin (some c.status) = c.status := by
  have hne : c.status ≠ "" := by
    rw [Cast.status, StatusUpdate.nextStatus]
    exact orDefault_ne_empty (by decide)
  rw [statusOrigin, textOrEmpty, Option.getD_some, orDefault, if_neg hne]

/-- The tracker is a reporter of the statuses of its slots. -/
structure Simulates (service : String) (r : Reporter Cast String String) (s : Tracking) :
    Prop where
  name : s.tracker.service = service
  last : s.tracker.lastStatusBySlot = r.last
  attempts : s.attempts = r.announced.map (Attempt.after service)

theorem Simulates.step {service : String} {r : Reporter Cast String String} {s : Tracking}
    (h : Simulates service r s) (c : Cast) :
    Simulates service (r.step Cast.slot Cast.status statusOrigin "connected" c) (s.step c) := by
  obtain ⟨hservice, hlast, hattempts⟩ := h
  refine ⟨hservice, ?_, ?_⟩
  · rw [Reporter.step, ← hlast]
    rfl
  · rw [Reporter.step, List.map_append, ← hattempts, ← hlast]
    show s.attempts ++ _ = s.attempts ++ _
    congr 1
    rw [IbConnectionStatusTracker.update, hservice]
    split_ifs <;> rfl

theorem reporter_run (service : String) (cs : List Cast) :
    ∃ r, Reports Cast.slot Cast.status statusOrigin "connected" cs r ∧
      Simulates service r (run Tracking.step (Tracking.fresh service) cs) := by
  refine ⟨_, reports_run statusOrigin_status cs, ?_⟩
  induction cs using List.reverseRecOn with
  | nil => exact ⟨rfl, rfl, rfl⟩
  | append_singleton cs c ih =>
    rw [run_snoc, run_snoc]
    exact ih.step c

/-! ## What is announced -/

/-- The statuses before and after. -/
def SystemMessageEvent.statuses (e : SystemMessageEvent) : String × String :=
  (e.statusFrom, e.statusTo)

theorem event?_eq_some {a : Attempt} {e : SystemMessageEvent} (h : a.event? = some e) :
    e = ibConnectionEvent a.cast.uuid a.cast.now a.args := by
  unfold Attempt.event? buildIbConnectionEvent at h
  split_ifs at h
  exact (Option.some.inj h).symm

/-- A call that works: its client id can be printed, and its event is written. -/
def Cast.Works (c : Cast) : Prop := c.written = true ∧ ∀ n ∈ c.update.clientId, Printable n

section Announced

variable {service : String} {x : Cast × String}

theorem slot_ibConnectionEvent (uuid : UuidHex) (now : ℚ) (a : IbConnectionArgs) :
    (ibConnectionEvent uuid now a).slot = a.slotName := by
  dsimp only [ibConnectionEvent]

theorem slot_after : (Attempt.after service x).args.slot = x.1.update.slotName := by
  dsimp only [Attempt.after, StatusUpdate.eventArgs]

theorem slot_event? {e : SystemMessageEvent} (h : (Attempt.after service x).event? = some e) :
    e.slot = x.1.slot := by
  rw [event?_eq_some h, slot_ibConnectionEvent, IbConnectionArgs.slotName, slot_after, Cast.slot,
    StatusUpdate.slotName, sanitizeSlot_sanitizeSlot]

theorem statuses_event? {e : SystemMessageEvent} (h : (Attempt.after service x).event? = some e) :
    e.statuses = (x.2, x.1.status) := by
  rw [event?_eq_some h]
  dsimp only [SystemMessageEvent.statuses, ibConnectionEvent, Attempt.after, StatusUpdate.eventArgs]

theorem event?_of_works (h : x.1.Works) : (Attempt.after service x).event?.isSome := by
  rw [Attempt.event?, Attempt.after, if_pos h.1, buildIbConnectionEvent]
  exact (if_pos h.2).symm ▸ rfl

/-- The events of a slot are those of what was announced of it and written. -/
theorem streamOf_eq {r : Reporter Cast String String} {s : Tracking} (h : Simulates service r s)
    (slot : String) : s.streamOf slot = (r.announced.filter (·.1.slot = slot)).filterMap
      fun x => (Attempt.after service x).event? := by
  rw [Tracking.streamOf, h.attempts, List.filterMap_map, List.filter_filterMap,
    List.filterMap_filter]
  refine List.filterMap_congr fun x _ => ?_
  rw [Function.comp_apply]
  cases he : (Attempt.after service x).event? with
  | none => simp
  | some e => simp [Option.filter, slot_event? he]

theorem statuses_sublist (l : List (Cast × String)) :
    List.Sublist
      ((l.filterMap fun x => (Attempt.after service x).event?).map SystemMessageEvent.statuses)
      (l.map fun x => (x.2, x.1.status)) := by
  induction l with
  | nil => exact .slnil
  | cons x l ih =>
    rw [List.map_cons, List.filterMap_cons]
    cases he : (Attempt.after service x).event? with
    | none => exact ih.cons _
    | some e =>
      rw [List.map_cons, statuses_event? he]
      exact ih.cons_cons _

theorem statuses_of_works (l : List (Cast × String)) (h : ∀ x ∈ l, x.1.Works) :
    (l.filterMap fun x => (Attempt.after service x).event?).map SystemMessageEvent.statuses =
      l.map fun x => (x.2, x.1.status) := by
  induction l with
  | nil => rfl
  | cons x l ih =>
    obtain ⟨e, he⟩ := Option.isSome_iff_exists.1
      (@event?_of_works service x (h x List.mem_cons_self))
    rw [List.map_cons, List.filterMap_cons, he, List.map_cons, statuses_event? he,
      ih fun y hy => h y (List.mem_cons_of_mem _ hy)]

end Announced

/-- The statuses that were reported of a slot, in order. -/
def reported (slot : String) (cs : List Cast) : List String :=
  valuesOf Cast.slot Cast.status slot cs

/-- **The tracker announces the changes of a slot, each once.**  Over every run of calls the events
of a slot in the stream are some of the announcements of the statuses reported of it, in order, and
no event says that nothing changed.  Where every write of the slot works they are all of them: each
starts at the status where the one before it ended, and the last one says the status of now. -/
theorem tracker_law (service slot : String) (cs : List Cast) :
    let events := (run Tracking.step (Tracking.fresh service) cs).streamOf slot
    let due := announcements "unknown" "connected" (reported slot cs)
    (events.map SystemMessageEvent.statuses).Sublist due ∧
      (∀ e ∈ events, e.statusFrom ≠ e.statusTo) ∧
      ((∀ c ∈ cs, c.slot = slot → c.Works) →
        events.map SystemMessageEvent.statuses = due ∧
        events.IsChain (fun e f => e.statusTo = f.statusFrom) ∧
        (events ≠ [] → events.getLast?.map (·.statusTo) = (reported slot cs).getLast?)) := by
  intro events due
  obtain ⟨r, hreports, hsim⟩ := reporter_run service cs
  have hannounced : (r.announced.filter (·.1.slot = slot)).map (fun x => (x.2, x.1.status)) = due :=
    hreports.announced slot
  have hevents : events = _ := streamOf_eq hsim slot
  have hsub : (events.map SystemMessageEvent.statuses).Sublist due := by
    rw [hevents, ← hannounced]
    exact statuses_sublist _
  refine ⟨hsub, fun e he => ?_, fun hworks => ?_⟩
  · exact ne_of_mem_announcements (by decide) (hsub.subset (List.mem_map_of_mem he))
  · have heq : events.map SystemMessageEvent.statuses = due := by
      rw [hevents, ← hannounced]
      refine statuses_of_works _ fun x hx => ?_
      obtain ⟨hmem, hslot⟩ := List.mem_filter.1 hx
      exact hworks x.1 (hreports.mem x hmem) (of_decide_eq_true hslot)
    refine ⟨heq, ?_, fun hne => ?_⟩
    · have hchain := isChain_announcements "unknown" "connected" (reported slot cs)
      rw [show announcements _ _ _ = due from rfl, ← heq] at hchain
      exact (List.isChain_map _).1 hchain
    · have hdue : due ≠ [] := by
        rw [← heq]
        simpa using hne
      have hlast := getLast?_announcements hdue
      rw [show announcements _ _ _ = due from rfl, ← heq, List.getLast?_map, Option.map_map]
        at hlast
      exact hlast

end Core.MessageCenter
