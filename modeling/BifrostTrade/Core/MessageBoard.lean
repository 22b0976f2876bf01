import BifrostTrade.Lib.Documents
import Mathlib.Data.List.Nodup

/-!
# Reading the materialized messages

`fetch_materialized_messages` of `core/message_center.py`: the index is read page by page from the
newest message on, ids whose item has expired or cannot be read are remembered, and at the end they
are taken out of the index.  No other client writes meanwhile.
-/

namespace Core.MessageBoard

open Py

/-- The ids of the index by falling score, and the texts of the items that have not expired. -/
structure Board where
  ranked : List String
  nodup : ranked.Nodup
  payload : String → Option String

/-- What the loop makes of a payload: the id is stale, or the payload is a message or no object. -/
inductive Reading where
  | stale
  | other
  | message (parsed : Json.Value)

/-- What `fetch_materialized_messages` makes of a payload. -/
def readPayload (rawPayload : Option String) : Reading :=
  match rawPayload.map fun raw => Json.loads raw.toList with
  | some (some parsed) => if parsed.isObject then .message parsed else .other
  | _ => .stale

/-- Whether the id is taken for stale: no payload, or one that is no JSON text. -/
def Reading.isStale : Reading → Bool
  | stale => true
  | _ => false

/-- The message that is answered, where there is one. -/
def Reading.toMessage : Reading → Option Json.Value
  | message parsed => some parsed
  | _ => none

/-- `out` and `stale_ids`. -/
structure Found where
  out : List Json.Value
  staleIds : List String

/-- The inner loop over the ids of a page. -/
def readPage (payload : String → Option String) (limit : ℤ) : List String → Found → Found
  | [], f => f
  | messageId :: ids, f =>
      match readPayload (payload messageId) with
      | .stale => readPage payload limit ids { f with staleIds := f.staleIds ++ [messageId] }
      | .other => readPage payload limit ids f
      | .message parsed =>
          if limit ≤ (f.out ++ [parsed]).length then { f with out := f.out ++ [parsed] }
          else readPage payload limit ids { f with out := f.out ++ [parsed] }

/-- `remaining`. -/
def remaining (limit : ℤ) (out : List Json.Value) : ℕ := (max 1 (limit - out.length)).toNat

/-- `ZREVRANGE start (start + n - 1)`. -/
def Board.zrevrange (b : Board) (start n : ℕ) : List String := (b.ranked.drop start).take n

/-- The outer loop; answers what was found and where it stopped. -/
def fetchLoop (b : Board) (limit : ℤ) (start : ℕ) (f : Found) : Found × ℕ :=
  if (f.out.length : ℤ) < limit ∧ (start : ℤ) < limit * 4 then
    let ids := b.zrevrange start (remaining limit f.out)
    if ids = [] then (f, start)
    else fetchLoop b limit (start + ids.length) (readPage b.payload limit ids f)
  else (f, start)
termination_by b.ranked.length - start
decreasing_by
  rename_i hids
  have hpos : 0 < (b.zrevrange start (remaining limit f.out)).length :=
    List.length_pos_iff.2 hids
  simp only [Board.zrevrange, List.length_take, List.length_drop] at hpos ⊢
  omega

/-- `ZREM`. -/
def Board.zrem (b : Board) (ids : List String) : Board where
  ranked := b.ranked.filter (· ∉ ids)
  nodup := b.nodup.filter _
  payload := b.payload

/-- `fetch_materialized_messages`; the removal at the end may fail, which is swallowed. -/
def fetchMaterializedMessages (removes : Bool) (b : Board) (limit : ℤ) : List Json.Value × Board :=
  let f := (fetchLoop b limit 0 ⟨[], []⟩).1
  (f.out, if f.staleIds ≠ [] ∧ removes then b.zrem f.staleIds else b)

/-! ## The loop -/

/-- The message behind an id. -/
def Board.message (b : Board) (messageId : String) : Option Json.Value :=
  (readPayload (b.payload messageId)).toMessage

/-- An id whose item is gone or cannot be read. -/
def Board.stale (b : Board) (messageId : String) : Bool :=
  (readPayload (b.payload messageId)).isStale

theorem Board.message_eq_none_of_stale {b : Board} {messageId : String}
    (h : b.stale messageId = true) : b.message messageId = none := by
  unfold Board.message
  unfold Board.stale at h
  cases hr : readPayload (b.payload messageId) <;> simp_all [Reading.isStale, Reading.toMessage]

/-- What was found among some ids. -/
def Board.foundIn (b : Board) (ids : List String) : Found :=
  ⟨ids.filterMap b.message, ids.filter b.stale⟩

theorem Board.foundIn_append (b : Board) (ids ids' : List String) :
    b.foundIn (ids ++ ids') = ⟨(b.foundIn ids).out ++ (b.foundIn ids').out,
      (b.foundIn ids).staleIds ++ (b.foundIn ids').staleIds⟩ := by
  simp [Board.foundIn]

/-- A page that cannot hold more messages than are still wanted is read to its end. -/
theorem readPage_eq {b : Board} {limit : ℤ} {ids : List String} {f : Found}
    (h : (f.out.length : ℤ) + ids.length ≤ limit) :
    readPage b.payload limit ids f =
      ⟨f.out ++ (b.foundIn ids).out, f.staleIds ++ (b.foundIn ids).staleIds⟩ := by
  induction ids generalizing f with
  | nil => simp [readPage, Board.foundIn]
  | cons messageId ids ih =>
    rw [List.length_cons] at h
    push_cast at h
    have hcons := b.foundIn_append [messageId] ids
    rw [List.singleton_append] at hcons
    rw [readPage, hcons]
    cases hr : readPayload (b.payload messageId) with
    | stale =>
      simp only
      rw [ih (by simp only; omega)]
      simp [Board.foundIn, Board.message, Board.stale, hr, Reading.toMessage, Reading.isStale]
    | other =>
      simp only
      rw [ih (by omega)]
      simp [Board.foundIn, Board.message, Board.stale, hr, Reading.toMessage, Reading.isStale]
    | message parsed =>
      simp only
      have hsingle : b.foundIn [messageId] = ⟨[parsed], []⟩ := by
        simp [Board.foundIn, Board.message, Board.stale, hr, Reading.toMessage, Reading.isStale]
      rw [hsingle]
      split_ifs with hfull
      · -- the limit is reached with the last id of the page
        obtain rfl : ids = [] := by
          rw [← List.length_eq_zero_iff]
          simp only [List.length_append, List.length_singleton] at hfull
          push_cast at hfull
          omega
        simp [Board.foundIn]
      · rw [ih (by simp only [List.length_append, List.length_singleton]; push_cast; omega)]
        simp

/-- Where the loop stops, with what was found among the ids before. -/
structure Stops (b : Board) (limit : ℤ) (r : Found × ℕ) : Prop where
  found : r.1 = b.foundIn (b.ranked.take r.2)
  atMost : (r.1.out.length : ℤ) ≤ max limit 0
  enough : limit ≤ r.1.out.length ∨ b.ranked.length ≤ r.2 ∨ limit * 4 ≤ r.2

theorem stops_fetchLoop {b : Board} {limit : ℤ} {start : ℕ} {f : Found}
    (hfound : f = b.foundIn (b.ranked.take start)) (hmost : (f.out.length : ℤ) ≤ max limit 0) :
    Stops b limit (fetchLoop b limit start f) := by
  induction start, f using fetchLoop.induct b limit with
  | case1 start f hmore ids hids =>
    rw [fetchLoop, if_pos hmore]
    simp only
    rw [if_pos hids]
    refine ⟨hfound, hmost, .inr (.inl ?_)⟩
    -- the page is empty, so the index ends here
    have hlen := congrArg List.length hids
    simp only [ids, Board.zrevrange, List.length_take, List.length_drop, List.length_nil,
      remaining] at hlen
    omega
  | case2 start f hmore ids hids ih =>
    rw [fetchLoop, if_pos hmore]
    simp only
    rw [if_neg hids]
    have hpage : (f.out.length : ℤ) + ids.length ≤ limit := by
      simp only [ids, Board.zrevrange, List.length_take, remaining]
      omega
    have htake : b.ranked.take (start + ids.length) = b.ranked.take start ++ ids := by
      rw [List.take_add]
      congr 1
      simp only [ids, Board.zrevrange, List.length_take]
      rw [List.take_eq_take_iff]
      omega
    have hread := readPage_eq (b := b) hpage
    refine ih ?_ ?_
    · rw [hread, htake, b.foundIn_append, ← hfound]
    · rw [hread]
      have hle : (b.foundIn ids).out.length ≤ ids.length := List.length_filterMap_le _ _
      simp only [List.length_append]
      push_cast
      omega
  | case3 start f hdone =>
    rw [fetchLoop, if_neg hdone]
    refine ⟨hfound, hmost, ?_⟩
    rw [not_and_or, not_lt, not_lt] at hdone
    exact hdone.imp_right .inr

theorem stops_fetch (b : Board) (limit : ℤ) : Stops b limit (fetchLoop b limit 0 ⟨[], []⟩) :=
  stops_fetchLoop rfl (by simp)

/-! ## One call -/

section Call

variable {removes : Bool} {b : Board} {limit : ℤ}

theorem stale_of_removed {messageId : String} (hmem : messageId ∈ b.ranked)
    (hremoved : messageId ∉ (fetchMaterializedMessages removes b limit).2.ranked) :
    b.stale messageId = true := by
  unfold fetchMaterializedMessages at hremoved
  simp only at hremoved
  split_ifs at hremoved with h
  · simp only [Board.zrem, List.mem_filter, hmem, true_and, decide_eq_true_eq, not_not] at hremoved
    rw [(stops_fetch b limit).found] at hremoved
    exact (List.mem_filter.1 hremoved).2
  · exact absurd hmem hremoved

theorem payload_fetch : (fetchMaterializedMessages removes b limit).2.payload = b.payload := by
  simp only [fetchMaterializedMessages]
  split_ifs <;> rfl

theorem message_fetch : (fetchMaterializedMessages removes b limit).2.message = b.message := by
  funext messageId
  rw [Board.message, payload_fetch, Board.message]

/-- The index after a call has the ids that stay, in their order. -/
theorem ranked_fetch : ∃ gone : String → Bool,
    (fetchMaterializedMessages removes b limit).2.ranked = b.ranked.filter (fun i => !gone i) ∧
      ∀ i, gone i = true → b.stale i = true := by
  simp only [fetchMaterializedMessages]
  split_ifs
  · refine ⟨fun i => i ∈ (fetchLoop b limit 0 ⟨[], []⟩).1.staleIds, ?_, fun i hi => ?_⟩
    · simp only [Board.zrem]
      exact List.filter_congr fun i _ => by simp
    · rw [(stops_fetch b limit).found] at hi
      exact (List.mem_filter.1 (of_decide_eq_true hi)).2
  · exact ⟨fun _ => false, by simp, fun _ h => absurd h Bool.false_ne_true⟩

/-- No message is lost to a call, and none changes its place. -/
theorem messages_fetch : (fetchMaterializedMessages removes b limit).2.ranked.filterMap
    (fetchMaterializedMessages removes b limit).2.message = b.ranked.filterMap b.message := by
  obtain ⟨gone, hranked, hgone⟩ := @ranked_fetch removes b limit
  rw [message_fetch, hranked, List.filterMap_filter]
  refine List.filterMap_congr fun i _ => ?_
  cases hi : gone i with
  | false => rfl
  | true => exact (b.message_eq_none_of_stale (hgone i hi)).symm

/-- A call that reaches the limit, or the end of the index, answers the newest messages. -/
theorem newest_of_stops {r : Found × ℕ} (h : Stops b limit r)
    (hall : limit ≤ r.1.out.length ∨ b.ranked.length ≤ r.2) :
    r.1.out = (b.ranked.filterMap b.message).take limit.toNat := by
  have hout : r.1.out = (b.ranked.take r.2).filterMap b.message := by rw [h.found]; rfl
  have hsplit : b.ranked.filterMap b.message =
      r.1.out ++ (b.ranked.drop r.2).filterMap b.message := by
    rw [hout, ← List.filterMap_append, List.take_append_drop]
  have hmost := h.atMost
  rcases hall with hfull | hend
  · rw [hsplit, List.take_append_of_le_length (by omega), List.take_of_length_le (by omega)]
  · rw [hsplit, List.drop_eq_nil_of_le hend, List.filterMap_nil, List.append_nil,
      List.take_of_length_le (by omega)]

/-- **A fetch answers the newest messages and loses none.**  It answers the messages among the
first ids of the index, at most as many as asked for, and goes on until it has them, or the index
ends, or four times as many ids were looked at.  What it takes out of the index is no message. -/
theorem fetch_law (removes : Bool) (b : Board) (limit : ℤ) :
    (∃ n, (fetchMaterializedMessages removes b limit).1 = (b.ranked.take n).filterMap b.message ∧
      ((fetchMaterializedMessages removes b limit).1.length : ℤ) ≤ max limit 0 ∧
      ((fetchMaterializedMessages removes b limit).1 =
          (b.ranked.filterMap b.message).take limit.toNat ∨ limit * 4 ≤ n)) ∧
    (fetchMaterializedMessages removes b limit).2.ranked.filterMap
      (fetchMaterializedMessages removes b limit).2.message = b.ranked.filterMap b.message ∧
    ∀ i ∈ b.ranked, i ∉ (fetchMaterializedMessages removes b limit).2.ranked →
      b.stale i = true := by
  have hstops := stops_fetch b limit
  refine ⟨⟨(fetchLoop b limit 0 ⟨[], []⟩).2, ?_, hstops.atMost, ?_⟩, messages_fetch,
    fun i hmem hremoved => stale_of_removed hmem hremoved⟩
  · show (fetchLoop b limit 0 ⟨[], []⟩).1.out = _
    rw [hstops.found]
    rfl
  · rcases hstops.enough with hfull | hend | hlooked
    · exact .inl (newest_of_stops hstops (.inl hfull))
    · exact .inl (newest_of_stops hstops (.inr hend))
    · exact .inr hlooked

end Call

/-! ## One call after another -/

/-- The board after a call whose removal works. -/
def next (limit : ℤ) (b : Board) : Board := (fetchMaterializedMessages true b limit).2

section Repeated

variable {b : Board} {limit : ℤ}

/-- A call on the board reaches the limit or the end of the index. -/
def Settled (limit : ℤ) (b : Board) : Prop :=
  limit ≤ (fetchLoop b limit 0 ⟨[], []⟩).1.out.length ∨
    b.ranked.length ≤ (fetchLoop b limit 0 ⟨[], []⟩).2

/-- No payload of the index is a text that is no object. -/
def AllObjects (b : Board) : Prop := ∀ i ∈ b.ranked, readPayload (b.payload i) ≠ .other

theorem AllObjects.message_isSome (h : AllObjects b) {i : String} (hmem : i ∈ b.ranked)
    (hstale : b.stale i = false) : (b.message i).isSome = true := by
  have hother := h i hmem
  unfold Board.stale at hstale
  unfold Board.message
  cases hr : readPayload (b.payload i) with
  | stale => simp [hr, Reading.isStale] at hstale
  | other => exact absurd hr hother
  | message parsed => rfl

/-- The index after a call: of the ids looked at the messages, then the others. -/
theorem ranked_next (limit : ℤ) (b : Board) : (next limit b).ranked =
    ((b.ranked.take (fetchLoop b limit 0 ⟨[], []⟩).2).filter fun i => !b.stale i) ++
      b.ranked.drop (fetchLoop b limit 0 ⟨[], []⟩).2 := by
  have hstale : (fetchLoop b limit 0 ⟨[], []⟩).1.staleIds =
      (b.ranked.take (fetchLoop b limit 0 ⟨[], []⟩).2).filter b.stale := by
    rw [(stops_fetch b limit).found]
    rfl
  generalize (fetchLoop b limit 0 ⟨[], []⟩).2 = n at hstale
  have hzrem : (next limit b).ranked = b.ranked.filter (· ∉ (b.ranked.take n).filter b.stale) := by
    simp only [next, fetchMaterializedMessages, hstale]
    split_ifs with h
    · rfl
    · have hnil : (b.ranked.take n).filter b.stale = [] := by simpa using h
      rw [hnil]
      simp
  have hnodup := b.nodup
  rw [← List.take_append_drop n b.ranked, List.nodup_append] at hnodup
  rw [hzrem]
  conv_lhs => arg 2; rw [← List.take_append_drop n b.ranked]
  rw [List.filter_append]
  congr 1
  · refine List.filter_congr fun i hi => ?_
    simp [hi]
  · refine List.filter_eq_self.2 fun i hi => ?_
    simp only [List.mem_filter, not_and, decide_eq_true_eq]
    exact fun htake => absurd rfl (hnodup.2.2 i htake i hi)

theorem AllObjects.next (h : AllObjects b) : AllObjects (next limit b) := by
  intro i hi
  obtain ⟨gone, hranked, -⟩ := @ranked_fetch true b limit
  rw [MessageBoard.next, hranked] at hi
  rw [MessageBoard.next, payload_fetch]
  exact h i (List.mem_filter.1 hi).1

/-- A board that starts with enough messages, or has nothing else, is read through. -/
theorem settled_of_front {front rest : List String} (hranked : b.ranked = front ++ rest)
    (hfront : ∀ i ∈ front, (b.message i).isSome = true) (h : limit ≤ front.length ∨ rest = []) :
    Settled limit b := by
  have hstops := stops_fetch b limit
  unfold Settled
  generalize fetchLoop b limit 0 ⟨[], []⟩ = r at hstops ⊢
  rcases hstops.enough with hfull | hend | hlooked
  · exact .inl hfull
  · exact .inr hend
  · -- the ids looked at start with the messages in front
    have hlen : (front.take r.2).length ≤ r.1.out.length := by
      have hout : r.1.out = (b.ranked.take r.2).filterMap b.message := by rw [hstops.found]; rfl
      have hall : ((front.take r.2).filterMap b.message).length = (front.take r.2).length :=
        List.filterMap_length_eq_length.2 fun i hi => hfront i (List.mem_of_mem_take hi)
      rw [hout, hranked, List.take_append, List.filterMap_append, List.length_append, hall]
      omega
    rw [List.length_take] at hlen
    rcases h with hmany | hnil
    · left
      omega
    · subst hnil
      rw [List.append_nil] at hranked
      rw [hranked]
      by_cases hr : front.length ≤ r.2
      · exact .inr hr
      · left
        omega

theorem filter_messages (h : AllObjects b) (n : ℕ) :
    (((b.ranked.take n).filter fun i => !b.stale i).length) =
      ((b.ranked.take n).filterMap b.message).length := by
  have hsub : ∀ i ∈ b.ranked.take n, i ∈ b.ranked := fun i hi => List.mem_of_mem_take hi
  generalize b.ranked.take n = l at hsub
  induction l with
  | nil => rfl
  | cons i l ih =>
    have hi := hsub i List.mem_cons_self
    have ih := ih fun j hj => hsub j (List.mem_cons_of_mem _ hj)
    cases hstale : b.stale i with
    | true =>
      have hnone := b.message_eq_none_of_stale hstale
      simp [hstale, hnone, ih]
    | false =>
      obtain ⟨m, hm⟩ := Option.isSome_iff_exists.1 (h.message_isSome hi hstale)
      simp [hstale, hm, ih]

theorem Settled.next (hobjects : AllObjects b) (h : Settled limit b) :
    Settled limit (next limit b) := by
  have hstops := stops_fetch b limit
  have hranked := ranked_next limit b
  unfold Settled at h
  refine settled_of_front hranked (fun i hi => ?_) ?_
  · rw [MessageBoard.next, message_fetch]
    obtain ⟨htake, hstale⟩ := List.mem_filter.1 hi
    exact hobjects.message_isSome (List.mem_of_mem_take htake) (by simpa using hstale)
  · rw [filter_messages hobjects]
    have hout : (fetchLoop b limit 0 ⟨[], []⟩).1.out =
        (b.ranked.take (fetchLoop b limit 0 ⟨[], []⟩).2).filterMap b.message := by
      conv_lhs => rw [hstops.found]
      rfl
    rw [← hout]
    exact h.imp_right List.drop_eq_nil_of_le

/-- A call that stops before takes an id out of the index. -/
theorem length_next_lt (hobjects : AllObjects b) (h : ¬ Settled limit b) :
    (next limit b).ranked.length < b.ranked.length := by
  have hstops := stops_fetch b limit
  have hranked := ranked_next limit b
  rw [Settled, not_or, not_le, not_le] at h
  have hout : (fetchLoop b limit 0 ⟨[], []⟩).1.out =
      (b.ranked.take (fetchLoop b limit 0 ⟨[], []⟩).2).filterMap b.message := by
    conv_lhs => rw [hstops.found]
    rfl
  have hlooked : limit * 4 ≤ (fetchLoop b limit 0 ⟨[], []⟩).2 := by
    rcases hstops.enough with hfull | hend | hlooked
    · omega
    · omega
    · exact hlooked
  rw [hranked, List.length_append, filter_messages hobjects, ← hout, List.length_drop]
  omega

theorem settled_iterate (hobjects : AllObjects b) {k : ℕ} (hk : b.ranked.length ≤ k) :
    Settled limit ((next limit)^[k] b) := by
  induction k generalizing b with
  | zero => exact .inr (by simp only [Function.iterate_zero, id_eq]; omega)
  | succ k ih =>
    rw [Function.iterate_succ_apply]
    by_cases h : Settled limit b
    · have hafter : ∀ m, Settled limit ((next limit)^[m] (next limit b)) := by
        intro m
        have hboth : AllObjects ((next limit)^[m] (next limit b)) ∧
            Settled limit ((next limit)^[m] (next limit b)) := by
          induction m with
          | zero => exact ⟨hobjects.next, h.next hobjects⟩
          | succ m ih =>
            rw [Function.iterate_succ_apply']
            exact ⟨ih.1.next, ih.2.next ih.1⟩
        exact hboth.2
      exact hafter k
    · have hlt := length_next_lt hobjects h
      exact ih hobjects.next (by omega)

theorem messages_iterate (limit : ℤ) (b : Board) (k : ℕ) :
    ((next limit)^[k] b).ranked.filterMap ((next limit)^[k] b).message =
      b.ranked.filterMap b.message := by
  induction k with
  | zero => rfl
  | succ k ih => rw [Function.iterate_succ_apply', next, messages_fetch, ih]

/-- **Stale ids do not hide messages for good.**  While no message is stored or expires, calls that
are repeated answer the newest messages in the end, however many stale ids are above them. -/
theorem fetch_repeated (hobjects : AllObjects b) (removes : Bool) {k : ℕ}
    (hk : b.ranked.length ≤ k) :
    (fetchMaterializedMessages removes ((next limit)^[k] b) limit).1 =
      (b.ranked.filterMap b.message).take limit.toNat := by
  rw [← messages_iterate limit b k]
  exact newest_of_stops (stops_fetch _ limit) (settled_iterate hobjects hk)

/-- A board whose five newest items have expired, one more than a call for one message looks at. -/
def expiredBoard : Board where
  ranked := ["m6", "m5", "m4", "m3", "m2", "m1"]
  nodup := by decide
  payload i := if i = "m1" then some "\x7b\x7d" else none

theorem allObjects_expiredBoard : AllObjects expiredBoard := by
  intro i hi
  have hread : readPayload (some "\x7b\x7d") = .message (.object []) := by rfl
  by_cases hlast : i = "m1"
  · subst hlast
    show readPayload (some "\x7b\x7d") ≠ .other
    rw [hread]
    intro h
    cases h
  · have hnone : expiredBoard.payload i = none := if_neg hlast
    rw [hnone]
    intro h
    cases h

/-- The first call answers nothing, the last one the message. -/
theorem fetch_repeated_expiredBoard :
    (fetchMaterializedMessages true expiredBoard 1).1 = [] ∧
      (fetchMaterializedMessages true ((next 1)^[6] expiredBoard) 1).1 = [.object []] :=
  ⟨by simp [fetchMaterializedMessages, fetchLoop, Board.zrevrange, remaining, expiredBoard,
      readPage, readPayload],
    (fetch_repeated allObjects_expiredBoard true (by decide)).trans (by rfl)⟩

end Repeated

end Core.MessageBoard
