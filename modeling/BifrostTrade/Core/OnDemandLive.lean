import BifrostTrade.Core.OnDemand
import BifrostTrade.Lib.Runs

/-!
# Live subscriptions are kept

Registrations and listings interleaved call by call, beside the subscriptions that should be there:
a heartbeat subscribes, and only a listing to which the heartbeat is stale ends a subscription.
Every subscription is a member with its heartbeat, and a listing returns it (`NeverPruned`), in
every run without the three calls that `SparesLive` excludes (`neverPruned_run`).
-/

namespace Core.OnDemand

open Py Calls RedisHash

/-! ## Subscriptions -/

/-- The last heartbeat of every key that is subscribed to. -/
abbrev Subscriptions := String → Option Time

/-- The heartbeat is at most `max_age` old. -/
def Listing.Live (l : Listing) (ts : Time) : Prop := 0 < ts.sec ∧ l.now - ts.sec ≤ l.maxAge

instance (l : Listing) (ts : Time) : Decidable (l.Live ts) := inferInstanceAs (Decidable (_ ∧ _))

/-- A heartbeat of keys whose members were added, or which are subscribed to. -/
def beat (subs : Subscriptions) (added : Bool) (keys : List String) (ts : Time) : Subscriptions :=
  fun key => if key ∈ keys ∧ (added ∨ (subs key).isSome) then some ts else subs key

/-- The end of the subscriptions that are stale to a listing. -/
def expire (subs : Subscriptions) (l : Listing) (keys : List String) : Subscriptions :=
  fun key => (subs key).filter fun ts => key ∉ keys ∨ l.Live ts

/-! ## The system -/

/-- Where an operation is: a registration with its keys, and whether it added them; a listing before
its first read; one that has read the members, with the subscriptions at that time; and one that has
read the heartbeats, with the keys it is about to remove and those it has to return. -/
inductive Phase where
  | registering (keys : List String) (ts : Time) (added : Bool)
  | starting (l : Listing)
  | read (l : Listing) (members : List String) (seen : Subscriptions)
  | pruning (l : Listing) (stale : List String) (due : String → Bool)

/-- Redis, and what is subscribed to. -/
structure World where
  redis : Redis
  subs : Subscriptions

/-- What an executed call does to the subscriptions. -/
def Phase.subscribe (subs : Subscriptions) : Phase → Call → Subscriptions
  | registering keys ts added, .hset _ => beat subs added keys ts
  | pruning l _ _, .srem keys => expire subs l keys
  | pruning l _ _, .hdel keys => expire subs l keys
  | _, _ => subs

/-- The phase after a call and its reply.  A listing whose reads are answered has to return a key
that is subscribed to at both reads and live at the second. -/
def Phase.after (twin : Twin) (subs : Subscriptions) (w : Delivery) :
    Phase → (c : Call) → Option (Reply c) → Phase
  | registering keys ts _, .sadd _, _ => registering keys ts (w ≠ .notExecuted)
  | registering _ ts _, .hset _, _ => registering [] ts false
  | starting l, .smembers, none => pruning l [] fun _ => false
  | starting l, .smembers, some members => read l members subs
  | read l members _, .hgetall, none => pruning l (twin.staleKeys l members []) fun _ => false
  | read l members seen, .hgetall, some tsMap =>
      pruning l (twin.staleKeys l members tsMap) fun key =>
        (seen key).isSome ∧ ∃ ts ∈ subs key, l.Live ts
  | pruning l _ due, .srem _, none => pruning l [] due
  | pruning l _ due, .hdel _, _ => pruning l [] due
  | k, _, _ => k

/-- A call of an operation, with what becomes of it. -/
def serve (twin : Twin) (k : Phase) (w : Delivery) (s : World) (c : Call) :
    World × Phase × Option (Reply c) :=
  let r := w.outcome s.redis (s.redis.execute c)
  (⟨r.1, if w = .notExecuted then s.subs else k.subscribe s.subs c⟩, k.after twin s.subs w c r.2,
    r.2)

/-- Any number of registrations and listings of one twin. -/
def system (twin : Twin) :
    System Call Reply Phase World (Option (List String)) Delivery Empty Operation where
  program := Operation.program twin
  init
    | .ensure _ contractKeys now => .registering (twin.normalize contractKeys) now false
    | .listFresh _ l => .starting l
  serve := serve twin
  env s _ := s

/-- Any content of Redis, before the first operation. -/
def start (redis : Redis) : Pool Call Reply Phase World (Option (List String)) :=
  ⟨⟨redis, fun _ => none⟩, []⟩

/-! ## The law -/

/-- The keys that a listing has to return. -/
def Phase.due : Phase → String → Bool
  | pruning _ _ due => due
  | _ => fun _ => false

/-- Every subscription is a member with its last heartbeat, and a listing returns what it has to. -/
structure NeverPruned (pool : Pool Call Reply Phase World (Option (List String))) : Prop where
  kept : ∀ key, ∀ ts ∈ pool.shared.subs key,
    key ∈ pool.shared.redis.members ∧ pool.shared.redis.beats.lookup key = some ts.text
  listed : ∀ t ∈ pool.threads, ∀ keys, t.program = .ret (some keys) →
    ∀ key, t.known.due key → key ∈ keys

/-! ## What is excluded -/

/-- The members that a listing is about to look up. -/
def Phase.members : Phase → Option (Listing × List String)
  | read l members _ => some (l, members)
  | _ => none

/-- The keys of a registration. -/
def Phase.keys : Phase → List String
  | registering keys _ _ => keys
  | _ => []

/-- The keys that a registration has added, without their heartbeat as yet. -/
def Phase.adding : Phase → List String
  | registering keys _ true => keys
  | _ => []

/-- A listing that found the key stale, to which its heartbeat is not, is about to remove it. -/
def Phase.Dooms (key : String) (ts : Time) : Phase → Prop
  | pruning l stale _ => key ∈ stale ∧ l.Live ts
  | _ => False

instance (key : String) (ts : Time) : (k : Phase) → Decidable (k.Dooms key ts)
  | .pruning .. => inferInstanceAs (Decidable (_ ∧ _))
  | .registering .. => isFalse id
  | .starting .. => isFalse id
  | .read .. => isFalse id

/-- The calls that spare what is live.  Excluded are: a failed read of the heartbeats by a listing
that has read a live member; a heartbeat of a key that a listing has found stale before and is about
to remove; and the removal of a member between the two commands of a registration of it. -/
def SparesLive (twin : Twin) (s : World) (ks : List Phase) (k : Phase) (w : Delivery) :
    Call → Prop
  | .hgetall => w ≠ .answered → ∀ r ∈ k.members, ∀ key ∈ twin.keysOf r.2, ∀ ts ∈ s.subs key,
      ¬ r.1.Live ts
  | .hset mapping => w ≠ .notExecuted → ∀ key ∈ k.keys,
      ∀ ts ∈ k.subscribe s.subs (.hset mapping) key, ∀ k' ∈ ks, ¬ k'.Dooms key ts
  | .srem stale => w ≠ .notExecuted → ∀ key ∈ stale, ∀ k' ∈ ks, key ∉ k'.adding
  | _ => True

instance (twin : Twin) (s : World) (ks : List Phase) (k : Phase) (w : Delivery) :
    (c : Call) → Decidable (SparesLive twin s ks k w c)
  | .hgetall => inferInstanceAs (Decidable (_ → ∀ r ∈ k.members, _))
  | .hset _ => inferInstanceAs (Decidable (_ → _))
  | .srem _ => inferInstanceAs (Decidable (_ → _))
  | .smembers => isTrue trivial
  | .sadd _ => isTrue trivial
  | .hdel _ => isTrue trivial

/-! ## What the programs do -/

/-- What a read shows of the subscriptions at that time. -/
def Shows (twin : Twin) (subs : Subscriptions) : (c : Call) → Option (Reply c) → Prop
  | .smembers, some members => ∀ key, ∀ ts ∈ subs key, key ∈ members ∧ twin.Normal key
  | .hgetall, some tsMap => ∀ key, ∀ ts ∈ subs key, tsMap.lookup key = some ts.text
  | _, _ => True

/-- The calls that an operation makes in each phase, and the replies they can get. -/
def protocol (twin : Twin) : Protocol Call Reply Phase where
  allowed k
    | .smembers => ∃ l, k = .starting l
    | .hgetall => ∃ l members seen, k = .read l members seen
    | .sadd keys => ∃ ts, k = .registering keys ts false
    | .hset mapping => ∃ keys ts added, k = .registering keys ts added ∧
        mapping = keys.map (fun key => (key, ts.text)) ∧ ∀ key ∈ keys, twin.Normal key
    | .srem keys => ∃ l due, k = .pruning l keys due
    | .hdel keys => ∃ l due, k = .pruning l keys due
  reply k c k' r := ∃ subs w, k' = k.after twin subs w c r ∧ Shows twin subs c r

/-- A listing returns what it has to. -/
def Returns (k : Phase) (keys : List String) : Prop := ∀ key, k.due key → key ∈ keys

theorem fresh_text (l : Listing) (ts : Time) : l.fresh (some ts.text) = decide (l.Live ts) := by
  have hread : (Option.some ts.text).bind readFloat = some (.fin ts.sec) := by
    rw [Option.bind_some, ts.reads]
  rw [Listing.fresh, hread]
  rfl

variable {twin : Twin}

theorem follows_prune {l : Listing} {stale : List String} {due : String → Bool} :
    Follows (protocol twin) (fun k _ => k.due = due) (.pruning l stale due) (prune stale) := by
  unfold prune
  split_ifs with hstale
  · rfl
  · refine ⟨⟨l, due, rfl⟩, fun k r hr => ?_⟩
    obtain ⟨subs, w, rfl, -⟩ := hr
    cases r with
    | none => rfl
    | some _ =>
      refine ⟨⟨l, due, rfl⟩, fun k r hr => ?_⟩
      obtain ⟨subs, w, rfl, -⟩ := hr
      rfl

theorem follows_listMembers {l : Listing} {members : List String} {seen : Subscriptions}
    (hseen : Shows twin seen .smembers (some members)) :
    Follows (protocol twin) Returns (.read l members seen) (listMembers twin l members) := by
  unfold listMembers
  split_ifs with hmembers
  · intro key hdue
    cases hdue
  · refine ⟨⟨l, members, seen, rfl⟩, fun k r hr => ?_⟩
    obtain ⟨subs, w, rfl, hshows⟩ := hr
    cases r with
    | none =>
      refine follows_prune.bind fun k _ hdue key hkey => ?_
      rw [hdue] at hkey
      cases hkey
    | some tsMap =>
      refine follows_prune.bind fun k _ hdue key hkey => ?_
      rw [hdue] at hkey
      obtain ⟨hsome, ts, hts, hlive⟩ := of_decide_eq_true hkey
      obtain ⟨ts', hts'⟩ := Option.isSome_iff_exists.1 hsome
      obtain ⟨hmem, hnormal⟩ := hseen key ts' hts'
      refine mem_sortedBy.2 (List.mem_filter.2 ⟨mem_keysOf hmem hnormal, ?_⟩)
      show l.fresh (tsMap.lookup key) = true
      rw [hshows key ts hts, fresh_text]
      exact decide_eq_true hlive

theorem follows_listFresh (client : Bool) (l : Listing) :
    Follows (protocol twin) Returns (.starting l) (listFreshOnDemand twin client l) := by
  unfold listFreshOnDemand
  split_ifs with hclient
  · intro key hdue
    cases hdue
  · refine ⟨⟨l, rfl⟩, fun k r hr => ?_⟩
    obtain ⟨subs, w, rfl, hshows⟩ := hr
    cases r with
    | none =>
      intro key hdue
      cases hdue
    | some members => exact follows_listMembers hshows

theorem follows_ensure (client : Bool) (contractKeys : List String) (now : Time) :
    Follows (protocol twin) (fun k _ => ∀ key, k.due key = false)
      (.registering (twin.normalize contractKeys) now false)
      (ensureOnDemand twin client contractKeys now) := by
  unfold ensureOnDemand
  dsimp only
  split_ifs with hnone
  · exact fun _ => rfl
  · refine ⟨⟨now, rfl⟩, fun k r hr => ?_⟩
    obtain ⟨subs, w, rfl, -⟩ := hr
    refine ⟨⟨_, now, _, rfl, rfl, fun key hkey => normal_of_normalize hkey⟩, fun k r' hr' => ?_⟩
    obtain ⟨subs, w', rfl, -⟩ := hr'
    exact fun _ => rfl

theorem follows_program (op : Operation) :
    Follows (protocol twin) (fun k a => ∀ keys, a = some keys → Returns k keys)
      ((system twin).init op) (op.program twin) := by
  cases op with
  | ensure client contractKeys now =>
    refine (follows_ensure client contractKeys now).imp fun k a hdue keys _ key hkey => ?_
    exact absurd hkey (by simp [hdue key])
  | listFresh client l =>
    refine (follows_listFresh client l).bind fun k keys hreturns keys' heq => ?_
    obtain rfl := Option.some.inj heq
    exact hreturns

/-! ## The invariant -/

/-- Every subscription is kept, and no listing is about to remove one that is live to it. -/
structure Spared (twin : Twin) (s : World) (ks : List Phase) : Prop where
  kept : ∀ key, ∀ ts ∈ s.subs key,
    key ∈ s.redis.members ∧ s.redis.beats.lookup key = some ts.text
  normal : ∀ key, ∀ ts ∈ s.subs key, twin.Normal key
  added : ∀ k ∈ ks, ∀ key ∈ k.adding, key ∈ s.redis.members
  doomed : ∀ k ∈ ks, ∀ key, ∀ ts ∈ s.subs key, ¬ k.Dooms key ts

variable {s : World} {ks : List Phase} {i : ℕ} {k k' : Phase}

/-- One phase replaced, with the server as it is. -/
theorem Spared.set (h : Spared twin s ks) (hadded : ∀ key ∈ k'.adding, key ∈ s.redis.members)
    (hdoomed : ∀ key, ∀ ts ∈ s.subs key, ¬ k'.Dooms key ts) : Spared twin s (ks.set i k') := by
  refine ⟨h.kept, h.normal, fun k hk => ?_, fun k hk => ?_⟩
  · rcases List.mem_or_eq_of_mem_set hk with hk | rfl
    exacts [h.added k hk, hadded]
  · rcases List.mem_or_eq_of_mem_set hk with hk | rfl
    exacts [h.doomed k hk, hdoomed]

theorem lookup_map_text {keys : List String} {ts : Time} {key : String} :
    (keys.map fun k => (k, ts.text)).lookup key = if key ∈ keys then some ts.text else none := by
  induction keys with
  | nil => rfl
  | cons k keys ih =>
    rw [List.map_cons, List.lookup_cons]
    by_cases hkey : key = k
    · simp [hkey]
    · rw [beq_false_of_ne hkey, ih]
      simp [hkey]

theorem mem_expire {subs : Subscriptions} {l : Listing} {keys : List String} {key : String}
    {ts : Time} : ts ∈ expire subs l keys key ↔ ts ∈ subs key ∧ (key ∉ keys ∨ l.Live ts) := by
  simp only [expire, Option.mem_def, Option.filter_eq_some_iff, decide_eq_true_eq]

/-! ## One call -/

theorem Spared.shows (h : Spared twin s ks) (w : Delivery) (c : Call) :
    Shows twin s.subs c (w.outcome s.redis (s.redis.execute c)).2 := by
  cases w with
  | answered =>
    cases c with
    | smembers => exact fun key ts hts => ⟨(h.kept key ts hts).1, h.normal key ts hts⟩
    | hgetall => exact fun key ts hts => (h.kept key ts hts).2
    | _ => trivial
  | _ => cases c <;> trivial

/-- A key that a listing finds stale in the heartbeats is subscribed to by none that is live. -/
theorem Spared.not_live_of_stale (h : Spared twin s ks) {l : Listing} {members : List String}
    {key : String} (hkey : key ∈ twin.staleKeys l members s.redis.beats) {ts : Time}
    (hts : ts ∈ s.subs key) : ¬ l.Live ts := by
  intro hlive
  have hstale := (List.mem_filter.1 hkey).2
  rw [(h.kept key ts hts).2, fresh_text, decide_eq_true hlive] at hstale
  cases hstale

theorem Spared.hgetall (h : Spared twin s ks) (w : Delivery) {l : Listing} {members : List String}
    {seen : Subscriptions}
    (hspares : SparesLive twin s ks (.read l members seen) w .hgetall) :
    Spared twin (serve twin (.read l members seen) w s .hgetall).1
      (ks.set i (serve twin (.read l members seen) w s .hgetall).2.1) := by
  cases w with
  | answered =>
    exact h.set (fun key hkey => absurd hkey List.not_mem_nil)
      fun key ts hts hdooms => h.not_live_of_stale hdooms.1 hts hdooms.2
  | replyLost =>
    refine h.set (fun key hkey => absurd hkey List.not_mem_nil) fun key ts hts hdooms => ?_
    exact hspares (by decide) _ rfl key (List.mem_filter.1 hdooms.1).1 ts hts hdooms.2
  | notExecuted =>
    refine h.set (fun key hkey => absurd hkey List.not_mem_nil) fun key ts hts hdooms => ?_
    exact hspares (by decide) _ rfl key (List.mem_filter.1 hdooms.1).1 ts hts hdooms.2

/-- After the members of a registration were added. -/
theorem Spared.add (h : Spared twin s ks) (keys : List String) (ts : Time) (added : Bool) :
    Spared twin ⟨(s.redis.execute (.sadd keys)).1, s.subs⟩
      (ks.set i (.registering keys ts added)) := by
  have hmembers : ∀ key ∈ s.redis.members, key ∈ (s.redis.execute (.sadd keys)).1.members :=
    fun key hkey => List.mem_append_left _ hkey
  have hkeys : ∀ key ∈ keys, key ∈ (s.redis.execute (.sadd keys)).1.members := by
    intro key hkey
    by_cases hmem : key ∈ s.redis.members
    · exact hmembers key hmem
    · exact List.mem_append_right _ (List.mem_filter.2 ⟨hkey, decide_eq_true hmem⟩)
  have hgrown : Spared twin ⟨(s.redis.execute (.sadd keys)).1, s.subs⟩ ks :=
    ⟨fun key ts hts => ⟨hmembers key (h.kept key ts hts).1, (h.kept key ts hts).2⟩, h.normal,
      fun k hk key hkey => hmembers key (h.added k hk key hkey), h.doomed⟩
  refine hgrown.set (fun key hkey => ?_) fun key ts hts => id
  cases added with
  | true => exact hkeys key hkey
  | false => exact absurd hkey List.not_mem_nil

theorem Spared.sadd (h : Spared twin s ks) (w : Delivery) (keys : List String) (ts : Time) :
    Spared twin (serve twin (.registering keys ts false) w s (.sadd keys)).1
      (ks.set i (serve twin (.registering keys ts false) w s (.sadd keys)).2.1) := by
  cases w with
  | answered => exact h.add keys ts true
  | replyLost => exact h.add keys ts true
  | notExecuted => exact h.set (fun key hkey => absurd hkey List.not_mem_nil) fun key ts hts => id

/-- After the heartbeats of a registration were written. -/
theorem Spared.register (h : Spared twin s ks) {keys : List String} {ts : Time} {added : Bool}
    (hk : Phase.registering keys ts added ∈ ks) (hnormal : ∀ key ∈ keys, twin.Normal key)
    (hdoomed : ∀ key ∈ keys, ∀ ts' ∈ beat s.subs added keys ts key, ∀ k ∈ ks,
      ¬ k.Dooms key ts') :
    Spared twin ⟨(s.redis.execute (.hset (keys.map fun key => (key, ts.text)))).1,
      beat s.subs added keys ts⟩ (ks.set i (.registering [] ts false)) := by
  have hlookup : ∀ key, (s.redis.execute
      (.hset (keys.map fun key => (key, ts.text)))).1.beats.lookup key =
        if key ∈ keys then some ts.text else s.redis.beats.lookup key := by
    intro key
    refine (lookup_hset _ _ key).trans ?_
    rw [lookup_map_text]
    split_ifs <;> rfl
  have hbeat : Spared twin ⟨(s.redis.execute (.hset (keys.map fun key => (key, ts.text)))).1,
      beat s.subs added keys ts⟩ ks := by
    refine ⟨fun key ts' hts => ?_, fun key ts' hts => ?_, h.added, fun k hk key ts' hts => ?_⟩
    · show key ∈ s.redis.members ∧ _
      rw [hlookup]
      by_cases hbeaten : key ∈ keys ∧ (added ∨ (s.subs key).isSome)
      · obtain rfl : ts = ts' := by simpa [beat, hbeaten] using hts
        refine ⟨?_, if_pos hbeaten.1⟩
        rcases hbeaten.2 with hadded | hsome
        · exact h.added _ hk key (by rw [hadded]; exact hbeaten.1)
        · obtain ⟨ts', hts'⟩ := Option.isSome_iff_exists.1 hsome
          exact (h.kept key ts' hts').1
      · have hold : ts' ∈ s.subs key := by simpa only [beat, if_neg hbeaten] using hts
        have hkey : key ∉ keys := fun hmem => hbeaten ⟨hmem, .inr (by rw [hold]; rfl)⟩
        rw [if_neg hkey]
        exact h.kept key ts' hold
    · by_cases hkey : key ∈ keys
      · exact hnormal key hkey
      · exact h.normal key ts' (by simpa [beat, hkey] using hts)
    · by_cases hkey : key ∈ keys
      · exact hdoomed key hkey ts' hts k hk
      · exact h.doomed k hk key ts' (by simpa [beat, hkey] using hts)
  exact hbeat.set (fun key hkey => absurd hkey List.not_mem_nil) fun key ts hts => id

theorem Spared.hset (h : Spared twin s ks) (w : Delivery) {keys : List String} {ts : Time}
    {added : Bool} (hk : Phase.registering keys ts added ∈ ks)
    (hnormal : ∀ key ∈ keys, twin.Normal key)
    (hspares : SparesLive twin s ks (.registering keys ts added) w
      (.hset (keys.map fun key => (key, ts.text)))) :
    Spared twin (serve twin (.registering keys ts added) w s
        (.hset (keys.map fun key => (key, ts.text)))).1
      (ks.set i (serve twin (.registering keys ts added) w s
        (.hset (keys.map fun key => (key, ts.text)))).2.1) := by
  cases w with
  | answered => exact h.register hk hnormal (hspares (by decide))
  | replyLost => exact h.register hk hnormal (hspares (by decide))
  | notExecuted => exact h.set (fun key hkey => absurd hkey List.not_mem_nil) fun key ts hts => id

/-- A subscription to a key that is being removed is stale, so only others are left. -/
theorem Spared.not_mem_of_expire (h : Spared twin s ks) {l : Listing} {stale : List String}
    {due : String → Bool} (hk : Phase.pruning l stale due ∈ ks) {key : String} {ts : Time}
    (hts : ts ∈ expire s.subs l stale key) : ts ∈ s.subs key ∧ key ∉ stale := by
  obtain ⟨hsub, hspared⟩ := mem_expire.1 hts
  refine ⟨hsub, fun hstale => ?_⟩
  rcases hspared with hnot | hlive
  · exact hnot hstale
  · exact h.doomed _ hk key ts hsub ⟨hstale, hlive⟩

/-- After members, or heartbeats, of stale keys were removed. -/
theorem Spared.remove (h : Spared twin s ks) {l : Listing} {stale stale' : List String}
    {due : String → Bool} (hk : Phase.pruning l stale due ∈ ks) {redis : Redis}
    (hstale : ∀ key ∈ stale', key ∈ stale)
    (hkept : ∀ key, key ∉ stale → (key ∈ s.redis.members → key ∈ redis.members) ∧
      redis.beats.lookup key = s.redis.beats.lookup key)
    (hadded : ∀ k ∈ ks, ∀ key ∈ k.adding, key ∈ redis.members) :
    Spared twin ⟨redis, expire s.subs l stale⟩ (ks.set i (.pruning l stale' due)) := by
  have hremoved : Spared twin ⟨redis, expire s.subs l stale⟩ ks := by
    refine ⟨fun key ts hts => ?_, fun key ts hts => ?_, hadded, fun k hk' key ts hts => ?_⟩
    · obtain ⟨hsub, hnot⟩ := h.not_mem_of_expire hk hts
      refine ⟨(hkept key hnot).1 (h.kept key ts hsub).1, ?_⟩
      exact (hkept key hnot).2.trans (h.kept key ts hsub).2
    · exact h.normal key ts (h.not_mem_of_expire hk hts).1
    · exact h.doomed k hk' key ts (h.not_mem_of_expire hk hts).1
  refine hremoved.set (fun key hkey => absurd hkey List.not_mem_nil) fun key ts hts hdooms => ?_
  exact (h.not_mem_of_expire hk hts).2 (hstale key hdooms.1)

theorem Spared.srem (h : Spared twin s ks) (w : Delivery) {l : Listing} {stale : List String}
    {due : String → Bool} (hk : Phase.pruning l stale due ∈ ks)
    (hspares : SparesLive twin s ks (.pruning l stale due) w (.srem stale)) :
    Spared twin (serve twin (.pruning l stale due) w s (.srem stale)).1
      (ks.set i (serve twin (.pruning l stale due) w s (.srem stale)).2.1) := by
  have hkept : ∀ key, key ∉ stale →
      (key ∈ s.redis.members → key ∈ (s.redis.execute (.srem stale)).1.members) ∧
        (s.redis.execute (.srem stale)).1.beats.lookup key = s.redis.beats.lookup key :=
    fun key hnot => ⟨fun hmem => List.mem_filter.2 ⟨hmem, decide_eq_true hnot⟩, rfl⟩
  have hadded : w ≠ .notExecuted → ∀ k ∈ ks, ∀ key ∈ k.adding,
      key ∈ (s.redis.execute (.srem stale)).1.members := fun hw k hk key hkey =>
    (hkept key fun hmem => hspares hw key hmem k hk hkey).1 (h.added k hk key hkey)
  cases w with
  | answered => exact h.remove hk (fun key => id) hkept (hadded (by decide))
  | replyLost =>
    exact h.remove hk (fun key hkey => absurd hkey List.not_mem_nil) hkept (hadded (by decide))
  | notExecuted =>
    exact h.set (fun key hkey => absurd hkey List.not_mem_nil)
      fun key ts hts hdooms => absurd hdooms.1 List.not_mem_nil

theorem Spared.hdel (h : Spared twin s ks) (w : Delivery) {l : Listing} {stale : List String}
    {due : String → Bool} (hk : Phase.pruning l stale due ∈ ks) :
    Spared twin (serve twin (.pruning l stale due) w s (.hdel stale)).1
      (ks.set i (serve twin (.pruning l stale due) w s (.hdel stale)).2.1) := by
  have hkept : ∀ key, key ∉ stale →
      (key ∈ s.redis.members → key ∈ (s.redis.execute (.hdel stale)).1.members) ∧
        (s.redis.execute (.hdel stale)).1.beats.lookup key = s.redis.beats.lookup key :=
    fun key hnot => ⟨id, (lookup_hdel _ _ key).trans (if_neg hnot)⟩
  cases w with
  | answered => exact h.remove hk (fun key hkey => absurd hkey List.not_mem_nil) hkept h.added
  | replyLost => exact h.remove hk (fun key hkey => absurd hkey List.not_mem_nil) hkept h.added
  | notExecuted =>
    exact h.set (fun key hkey => absurd hkey List.not_mem_nil)
      fun key ts hts hdooms => absurd hdooms.1 List.not_mem_nil

/-- Every call of the programs that spares what is live keeps the invariant. -/
theorem Spared.call (h : Spared twin s ks) (hk : ks[i]? = some k) (w : Delivery) {c : Call}
    (hallowed : (protocol twin).allowed k c) (hspares : SparesLive twin s ks k w c) :
    Spared twin (serve twin k w s c).1 (ks.set i (serve twin k w s c).2.1) := by
  have hmem : k ∈ ks := List.mem_of_getElem? hk
  cases c with
  | smembers =>
    obtain ⟨l, rfl⟩ := hallowed
    cases w with
    | answered => exact h.set (fun key hkey => absurd hkey List.not_mem_nil) fun key ts hts => id
    | _ =>
      exact h.set (fun key hkey => absurd hkey List.not_mem_nil)
        fun key ts hts hdooms => absurd hdooms.1 List.not_mem_nil
  | hgetall =>
    obtain ⟨l, members, seen, rfl⟩ := hallowed
    exact h.hgetall w hspares
  | sadd keys =>
    obtain ⟨ts, rfl⟩ := hallowed
    exact h.sadd w keys ts
  | hset mapping =>
    obtain ⟨keys, ts, added, rfl, rfl, hnormal⟩ := hallowed
    exact h.hset w hmem hnormal hspares
  | srem stale =>
    obtain ⟨l, due, rfl⟩ := hallowed
    exact h.srem w hmem hspares
  | hdel stale =>
    obtain ⟨l, due, rfl⟩ := hallowed
    exact h.hdel w hmem

/-! ## Runs -/

theorem ok_run (redis : Redis) {evs : List (Event Delivery Empty Operation)}
    (hevs : Runs.Along (Pool.step (system twin)) (start redis)
      (fun _ pool e => pool.CallMeets (SparesLive twin) e) evs) :
    (Runs.run (Pool.step (system twin)) (start redis) evs).Ok (protocol twin)
      (fun k a => ∀ keys, a = some keys → Returns k keys) (Spared twin) := by
  refine Pool.Ok.run follows_program ?_ ?_ ?_ ?_ hevs
  · intro s ks op h
    refine ⟨h.kept, h.normal, fun k hk key hkey => ?_, fun k hk key ts hts => ?_⟩
    · rcases List.mem_append.1 hk with hk | hk
      · exact h.added k hk key hkey
      · obtain rfl := List.mem_singleton.1 hk
        cases op <;> cases hkey
    · rcases List.mem_append.1 hk with hk | hk
      · exact h.doomed k hk key ts hts
      · obtain rfl := List.mem_singleton.1 hk
        cases op <;> exact id
  · exact fun _ _ e _ => e.elim
  · intro s ks i k w c h hk hallowed hspares
    exact ⟨⟨s.subs, w, rfl, h.shows w c⟩, h.call hk w hallowed hspares⟩
  · refine ⟨fun t ht => absurd ht List.not_mem_nil, ?_⟩
    constructor
    · intro key ts hts
      cases hts
    · intro key ts hts
      cases hts
    · exact fun k hk => absurd hk List.not_mem_nil
    · exact fun k hk => absurd hk List.not_mem_nil

/-- In every state of every run whose calls spare what is live, for both twins, a key whose last
heartbeat was stale to no listing that removed it is a member with that heartbeat, and every listing
whose reads were answered has returned the keys that were subscribed to at both reads and live to
it. -/
theorem neverPruned_run (twin : Twin) (redis : Redis) {evs : List (Event Delivery Empty Operation)}
    (hevs : Runs.Along (Pool.step (system twin)) (start redis)
      (fun _ pool e => pool.CallMeets (SparesLive twin) e) evs) :
    NeverPruned (Runs.run (Pool.step (system twin)) (start redis) evs) := by
  have hok := ok_run redis hevs
  refine ⟨hok.inv.kept, fun t ht keys hret => ?_⟩
  have hfollows := hok.follows t ht
  rw [hret, follows_ret] at hfollows
  exact hfollows keys rfl

theorem nearest_thousand : nearest 1000 = .fin 1000 := by decide +kernel

theorem nearest_later : nearest 1100 = .fin 1100 := by decide +kernel

/-- A first time. -/
def thousand : Time := ⟨1000, nearest_thousand⟩

/-- A time after it. -/
def later : Time := ⟨1100, nearest_later⟩

/-- A key of each twin. -/
def Twin.sample : Twin → String
  | opt => "GOOG|OPT|20260717|300.0|C"
  | stk => "GOOG"

/-- A registration, another one later, and a listing that finds the first key stale. -/
def registerAndList (twin : Twin) (other : String) : List (Event Delivery Empty Operation) :=
  [.start (.ensure true [twin.sample] thousand), .step 0 .answered, .step 0 .replyLost,
    .start (.ensure true [other] later), .step 1 .answered, .step 1 .answered,
    .start (.listFresh true ⟨90, 1100⟩), .step 2 .answered, .step 2 .answered, .step 2 .answered,
    .step 2 .answered]

theorem neverPruned_registerAndList :
    NeverPruned (Runs.run (Pool.step (system .stk)) (start ⟨[], []⟩)
      (registerAndList .stk "AAPL")) :=
  neverPruned_run .stk ⟨[], []⟩ (by decide +kernel)

/-- The key is registered again after a listing has read its old heartbeat, and before the listing
removes it. -/
def refreshedBeforePrune (twin : Twin) : List (Event Delivery Empty Operation) :=
  [.start (.ensure true [twin.sample] thousand), .step 0 .answered, .step 0 .answered,
    .start (.listFresh true ⟨90, 1100⟩), .step 1 .answered, .step 1 .answered,
    .start (.ensure true [twin.sample] later), .step 2 .answered, .step 2 .answered,
    .step 1 .answered, .step 1 .answered]

/-- A listing at the time of the registration cannot read the heartbeats. -/
def unreadHeartbeats (twin : Twin) : List (Event Delivery Empty Operation) :=
  [.start (.ensure true [twin.sample] thousand), .step 0 .answered, .step 0 .answered,
    .start (.listFresh true ⟨90, 1000⟩), .step 1 .answered, .step 1 .notExecuted,
    .step 1 .answered, .step 1 .answered]

theorem lost_of_run (twin : Twin) :
    ∀ evs ∈ [refreshedBeforePrune twin, unreadHeartbeats twin],
      ¬ NeverPruned (Runs.run (Pool.step (system twin)) (start ⟨[], []⟩) evs) := by
  have hlost : ∀ evs ∈ [refreshedBeforePrune twin, unreadHeartbeats twin],
      let s := (Runs.run (Pool.step (system twin)) (start ⟨[], []⟩) evs).shared
      (s.subs twin.sample).isSome ∧ twin.sample ∉ s.redis.members := by
    cases twin <;> decide +kernel
  intro evs hevs h
  obtain ⟨hsub, hnot⟩ := hlost evs hevs
  obtain ⟨ts, hts⟩ := Option.isSome_iff_exists.1 hsub
  exact hnot (h.kept _ ts hts).1

/-- Both ways remove a live key of either twin. -/
theorem not_neverPruned :
    (¬ NeverPruned (Runs.run (Pool.step (system .opt)) (start ⟨[], []⟩)
        (refreshedBeforePrune .opt)) ∧
      ¬ NeverPruned (Runs.run (Pool.step (system .opt)) (start ⟨[], []⟩)
        (unreadHeartbeats .opt))) ∧
    ¬ NeverPruned (Runs.run (Pool.step (system .stk)) (start ⟨[], []⟩)
        (refreshedBeforePrune .stk)) ∧
      ¬ NeverPruned (Runs.run (Pool.step (system .stk)) (start ⟨[], []⟩)
        (unreadHeartbeats .stk)) := by
  have hfirst := fun twin => lost_of_run twin _ (List.mem_cons_self ..)
  have hsecond := fun twin =>
    lost_of_run twin _ (List.mem_cons_of_mem _ (List.mem_cons_self ..))
  exact ⟨⟨hfirst .opt, hsecond .opt⟩, hfirst .stk, hsecond .stk⟩

end Core.OnDemand
