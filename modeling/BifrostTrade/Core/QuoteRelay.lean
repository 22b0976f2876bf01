import BifrostTrade.Lib.Conversions
import BifrostTrade.Lib.Runs
import BifrostTrade.Lib.Throttle
import Mathlib.Data.Rat.Defs

/-!
# The quote relay

`run_subscribe_loop` of `core/realtime/redis_subscribe.py`: a message names a contract, the full
quote is read from the cache and handed on, at most once in a while for each contract.  What goes
wrong inside drops the connection; the times of the last broadcasts outlive it.
-/

namespace Core.QuoteRelay

open Py Runs
open Dict (setItem)

/-! ## One message -/

/-- `_MIN_BROADCAST_INTERVAL_SEC`. -/
def minBroadcastInterval : ℚ := 1 / 5

/-- `(x or "").strip()`; `none` where it raises. -/
def orEmptyStripped (v : Json.Value) : Option (List ℕ) :=
  if v.truthy then
    match v with
    | .text points => some (stripPoints points)
    | _ => none
  else some []

/-- The contract a message names, empty for none; `none` where reading it raises. -/
def messageKey : Json.Value → Option (List ℕ)
  | .object members => do
      let contractKey ← orEmptyStripped (Json.field members "contract_key")
      if contractKey ≠ [] then return contractKey
      let sym ← orEmptyStripped (Json.field members "symbol")
      return if sym = [] then [] else sym ++ Iso.codes "|STK|||".toList
  | _ => none

/-- `IB_INGESTER_TICK_PREFIX`. -/
def ingesterTickPrefix : List ℕ := Iso.codes "ib:ingester:tick:".toList

/-- `get_ingester_tick`, over what a read of the cache gives; a failed read gives nothing. -/
def getIngesterTick (cache : List ℕ → Option String) (contractKey : List ℕ) : Option Json.Value :=
  if stripPoints contractKey = [] then none
  else (cache (ingesterTickPrefix ++ stripPoints contractKey)).bind fun s => Json.loads s.toList

/-- What the callback does: it returns, raises what a bad message raises, or something else. -/
inductive Callback where
  | returns
  | parseError
  | raises
  deriving DecidableEq

/-- A quote that was broadcast: the contract, when, and the quote. -/
structure Broadcast where
  key : List ℕ
  time : ℚ
  quote : Json.Value

/-- The loop: whether it is subscribed, the last broadcasts, and what it handed on. -/
structure Relay where
  connected : Bool
  lastBroadcast : List (List ℕ × ℚ)
  sent : List Broadcast

/-- Before the first subscription. -/
def Relay.start : Relay := ⟨false, [], []⟩

/-- A message that is taken at a time, with the cache as it is then. -/
structure Message where
  data : String
  now : ℚ
  cache : List ℕ → Option String
  callback : Callback

/-- A message that arrives. -/
def Relay.take (s : Relay) (msg : Message) : Relay :=
  match Json.loads msg.data.toList with
  | none => s
  | some data =>
    match messageKey data with
    | none => { s with connected := false }
    | some contractKey =>
      if contractKey = [] then s
      else if ¬ Throttle.Admits minBroadcastInterval 0 s.lastBroadcast contractKey msg.now then s
      else
        match (getIngesterTick msg.cache contractKey).filter Json.Value.truthy with
        | none => s
        | some quote =>
          { connected := msg.callback ≠ .raises
            lastBroadcast := setItem s.lastBroadcast contractKey msg.now
            sent := s.sent ++ [⟨contractKey, msg.now, quote⟩] }

/-- What happens to the relay. -/
inductive Event where
  /-- The loop subscribes, at the start and after a failure. -/
  | subscribed
  /-- The connection fails. -/
  | failed
  /-- A message is published; without a subscription it is lost. -/
  | published (msg : Message)

/-- An event of the relay. -/
def step (s : Relay) : Event → Relay
  | .subscribed => { s with connected := true }
  | .failed => { s with connected := false }
  | .published msg => if s.connected then s.take msg else s

/-! ## What a message does -/

/-- The contract a message asks for. -/
def Message.Asks (msg : Message) (contractKey : List ℕ) : Prop :=
  (Json.loads msg.data.toList).bind messageKey = some contractKey ∧ contractKey ≠ []

/-- The quote of a contract at a message. -/
def Message.Quotes (msg : Message) (contractKey : List ℕ) (quote : Json.Value) : Prop :=
  getIngesterTick msg.cache contractKey = some quote ∧ quote.truthy = true

/-- The key has waited. -/
def Relay.Waited (s : Relay) (contractKey : List ℕ) (now : ℚ) : Prop :=
  Throttle.Admits minBroadcastInterval 0 s.lastBroadcast contractKey now

/-- A message broadcasts, or leaves the broadcasts as they are. -/
theorem take_cases (s : Relay) (msg : Message) :
    (∃ contractKey quote, msg.Asks contractKey ∧ msg.Quotes contractKey quote ∧
      s.Waited contractKey msg.now ∧
      (s.take msg).lastBroadcast = setItem s.lastBroadcast contractKey msg.now ∧
      (s.take msg).sent = s.sent ++ [⟨contractKey, msg.now, quote⟩]) ∨
    ((s.take msg).lastBroadcast = s.lastBroadcast ∧ (s.take msg).sent = s.sent ∧
      ∀ contractKey quote, msg.Asks contractKey → msg.Quotes contractKey quote →
        ¬ s.Waited contractKey msg.now) := by
  unfold Relay.take Message.Asks
  cases hdata : Json.loads msg.data.toList with
  | none => exact .inr ⟨rfl, rfl, fun _ _ h => by simp at h⟩
  | some data =>
    dsimp only [Option.bind_some]
    cases hkey : messageKey data with
    | none => exact .inr ⟨rfl, rfl, fun _ _ h => by simp at h⟩
    | some contractKey =>
      dsimp only
      split
      · rename_i hempty
        exact .inr ⟨rfl, rfl, fun k _ h => absurd ((Option.some.inj h.1).symm.trans hempty) h.2⟩
      · rename_i hne
        split
        · rename_i hheld
          refine .inr ⟨rfl, rfl, fun k _ h _ hwaited => ?_⟩
          obtain rfl := Option.some.inj h.1
          exact hheld hwaited
        · rename_i hwaited
          cases hquote : (getIngesterTick msg.cache contractKey).filter Json.Value.truthy with
          | none =>
            refine .inr ⟨rfl, rfl, fun k quote h hq => ?_⟩
            obtain rfl := Option.some.inj h.1
            have hfiltered := Option.filter_eq_some_iff.2 hq
            rw [hquote] at hfiltered
            cases hfiltered
          | some quote =>
            exact .inl ⟨contractKey, quote, ⟨rfl, hne⟩, Option.filter_eq_some_iff.1 hquote,
              not_not.1 hwaited, rfl, rfl⟩

/-! ## Runs -/

/-- The message of an event, if it has one. -/
def Event.message : Event → Option Message
  | .published msg => some msg
  | .subscribed | .failed => none

/-- The clock does not go back between messages. -/
def Clocked (evs : List Event) : Prop :=
  evs.Pairwise fun d e => ∀ earlier ∈ d.message, ∀ msg ∈ e.message, earlier.now ≤ msg.now

/-- The events before this one have earlier messages. -/
def After (pre : List Event) (_ : Relay) (e : Event) : Prop :=
  ∀ d ∈ pre, ∀ earlier ∈ d.message, ∀ msg ∈ e.message, earlier.now ≤ msg.now

theorem Clocked.along {evs : List Event} (h : Clocked evs) (s : Relay) :
    Along step s After evs := by
  rintro pre e post rfl d hd
  exact (List.pairwise_append.1 h).2.2 d hd e List.mem_cons_self

/-- What the throttle looks at. -/
def Broadcast.stamp (b : Broadcast) : List ℕ × ℚ := (b.key, b.time)

/-- A broadcast is the quote of a contract that a message asked for. -/
def Answers (evs : List Event) (b : Broadcast) : Prop :=
  ∃ msg, .published msg ∈ evs ∧ msg.Asks b.key ∧ msg.Quotes b.key b.quote ∧ b.time = msg.now

theorem Answers.mono {evs evs' : List Event} {b : Broadcast} (h : Answers evs b)
    (hsub : evs ⊆ evs') : Answers evs' b := by
  obtain ⟨msg, hmem, hmsg⟩ := h
  exact ⟨msg, hsub hmem, hmsg⟩

/-- After the events: the broadcasts keep their distance and answer messages. -/
structure Inv (pre : List Event) (s : Relay) : Prop where
  throttle : Throttle.Ok minBroadcastInterval s.lastBroadcast (s.sent.map Broadcast.stamp)
  answers : ∀ b ∈ s.sent, Answers pre b

section Step

variable {pre : List Event} {s t : Relay} {e : Event}

theorem Inv.keep (h : Inv pre s) (hlast : t.lastBroadcast = s.lastBroadcast)
    (hsent : t.sent = s.sent) : Inv (pre ++ [e]) t := by
  refine ⟨?_, fun b hb => ?_⟩
  · rw [hlast, hsent]
    exact h.throttle
  · rw [hsent] at hb
    exact (h.answers b hb).mono (List.subset_append_left _ _)

/-- What was broadcast is not later than a message that comes after. -/
theorem Inv.stamp_le (h : Inv pre s) {msg : Message} (hafter : After pre s (.published msg)) :
    ∀ stamp ∈ s.sent.map Broadcast.stamp, stamp.2 ≤ msg.now := by
  intro stamp hstamp
  obtain ⟨b, hb, rfl⟩ := List.mem_map.1 hstamp
  obtain ⟨earlier, hmem, -, -, htime⟩ := h.answers b hb
  exact htime.trans_le (hafter _ hmem earlier rfl msg rfl)

theorem Inv.take (h : Inv pre s) {msg : Message} (hafter : After pre s (.published msg)) :
    Inv (pre ++ [.published msg]) (s.take msg) := by
  rcases take_cases s msg with ⟨key, quote, hasks, hquote, hwaited, hlast, hsent⟩ |
    ⟨hlast, hsent, -⟩
  · refine ⟨?_, fun b hb => ?_⟩
    · rw [hlast, hsent, List.map_append]
      exact h.throttle.admit (h.stamp_le hafter) hwaited
    · rw [hsent, List.mem_append, List.mem_singleton] at hb
      rcases hb with hb | rfl
      · exact (h.answers b hb).mono (List.subset_append_left _ _)
      · exact ⟨msg, List.mem_append_right _ (List.mem_singleton_self _), hasks, hquote, rfl⟩
  · exact h.keep hlast hsent

theorem Inv.step (h : Inv pre s) (hafter : After pre s e) : Inv (pre ++ [e]) (step s e) := by
  cases e with
  | subscribed => exact h.keep rfl rfl
  | failed => exact h.keep rfl rfl
  | published msg =>
    rw [QuoteRelay.step]
    split
    · exact h.take hafter
    · exact h.keep rfl rfl

/-- A message that is taken leaves a broadcast of its contract that is not old. -/
theorem Inv.exists_recent (h : Inv pre s) {msg : Message} {key : List ℕ} {quote : Json.Value}
    (hasks : msg.Asks key) (hquote : msg.Quotes key quote) :
    msg.now < minBroadcastInterval ∨
      ∃ b ∈ (s.take msg).sent, b.key = key ∧ msg.now - b.time < minBroadcastInterval := by
  rcases take_cases s msg with ⟨key', quote', hasks', -, -, -, hsent⟩ | ⟨-, hsent, hheld⟩
  · obtain rfl : key' = key := Option.some.inj (hasks'.1.symm.trans hasks.1)
    refine .inr ⟨⟨key', msg.now, quote'⟩, ?_, rfl, ?_⟩
    · rw [hsent]
      exact List.mem_append_right _ (List.mem_singleton_self _)
    · rw [sub_self]
      norm_num [minBroadcastInterval]
  · rcases h.throttle.exists_recent (hheld key quote hasks hquote) with hstart | ⟨t, ht, hrecent⟩
    · rw [sub_zero] at hstart
      exact .inl hstart
    · obtain ⟨b, hb, hstamp⟩ := List.mem_map.1 ht
      obtain ⟨hkey, htime⟩ := Prod.ext_iff.1 hstamp
      refine .inr ⟨b, hsent ▸ hb, hkey, ?_⟩
      rw [show b.time = t from htime]
      exact hrecent

end Step

theorem inv_run {evs : List Event} (h : Clocked evs) : Inv evs (run step .start evs) :=
  invariant Inv ⟨.nil, fun _ hb => absurd hb List.not_mem_nil⟩
    (fun _ _ hafter h => h.step hafter) (h.along _)

/-- What the relay hands on over a run. -/
structure RelayLaw (evs : List Event) : Prop where
  /-- The broadcasts of a contract are apart, also over failures of the connection. -/
  spaced : (run step .start evs).sent.Pairwise fun b c =>
    b.key = c.key → minBroadcastInterval ≤ c.time - b.time
  answers : ∀ b ∈ (run step .start evs).sent, Answers evs b
  /-- A message of a quoted contract that is read has a broadcast that is not old. -/
  recent : ∀ pre msg post, evs = pre ++ .published msg :: post →
    (run step .start pre).connected = true → ∀ key quote, msg.Asks key → msg.Quotes key quote →
      msg.now < minBroadcastInterval ∨ ∃ b ∈ (run step .start (pre ++ [.published msg])).sent,
        b.key = key ∧ msg.now - b.time < minBroadcastInterval

/-- **The relay is a throttle.**  Over any run the broadcasts of a contract are apart, each is the
cached quote at a message that asked for it, and a message that finds a quote either makes a
broadcast or comes soon after one, or soon after the clock began. -/
theorem relay_law {evs : List Event} (h : Clocked evs) : RelayLaw evs where
  spaced := (List.pairwise_map.1 (inv_run h).throttle.spaced).imp fun hspaced => hspaced
  answers := (inv_run h).answers
  recent := by
    rintro pre msg post rfl hconnected key quote hasks hquote
    rw [run_snoc, step, if_pos hconnected]
    exact (inv_run (List.pairwise_append.1 h).1).exists_recent hasks hquote

/-- A message at a time, with a quote in the cache. -/
def Sample.asked (now : ℚ) : Event :=
  .published ⟨"\x7b\"contract_key\": \"NVDA|STK|||\"\x7d", now,
    fun _ => some "\x7b\"last\": 5\x7d", .returns⟩

/-- Three messages, and a failure of the connection between them. -/
def Sample.burst : List Event :=
  [.subscribed, Sample.asked 1, Sample.asked (11 / 10), .failed, .subscribed, Sample.asked (5 / 4)]

theorem relay_law_burst : RelayLaw Sample.burst := by
  refine relay_law ?_
  simp [Clocked, Sample.burst, Sample.asked, Event.message]
  norm_num

example : (run step .start Sample.burst).sent.map Broadcast.time = [1, 5 / 4] := by
  decide +kernel

end Core.QuoteRelay
