import BifrostTrade.Lib.FloatRoundTrip
import BifrostTrade.Lib.Calls
import BifrostTrade.Lib.RedisHash

/-!
# On-demand subscriptions

`core/realtime/on_demand_opt.py` and its twin `on_demand_stk.py`: a set of keys and a hash of their
heartbeats, refreshed by `ensure_on_demand_*` and read and pruned by `list_fresh_on_demand_*`.  Each
is a program of Redis calls.  The client decodes what Redis returns.
-/

namespace Core.OnDemand

open Py Calls RedisHash

/-! ## Keys -/

/-- One key of `normalize_opt_contract_keys`; `none` where the loop skips it. -/
def optContractKey (raw : String) : Option String :=
  match ((strip raw).toList.splitOn '|').map fun part => strip (String.ofList part) with
  | [sym, sec, expiry, strike, right] =>
      if upper sym = "" ∨ upper sec ≠ "OPT" ∨ expiry = "" ∨ upper right ∉ ["C", "P"] then none
      else if ¬ expiry.toList.all isDigit ∨ expiry.length < 6 then none
      else if (readFloat strike).isNone then none
      else some (upper sym ++ "|OPT|" ++ expiry ++ "|" ++ strike ++ "|" ++ upper right)
  | _ => none

/-- `normalize_opt_contract_keys`. -/
def normalizeOptContractKeys (keys : List String) : List String :=
  firstSeen (keys.filterMap optContractKey)

/-- One symbol of `normalize_stk_symbols`. -/
def stkSymbol (raw : String) : Option String :=
  let sym := upper (strip raw)
  if sym = "" ∨ '|' ∈ sym.toList then none else some sym

/-- `normalize_stk_symbols`. -/
def normalizeStkSymbols (symbols : List String) : List String :=
  firstSeen (symbols.filterMap stkSymbol)

/-- The two modules, which differ in their keys alone. -/
inductive Twin where
  | opt
  | stk
  deriving DecidableEq

/-- The keys that `ensure_on_demand_*` registers. -/
def Twin.normalize : Twin → List String → List String
  | opt => normalizeOptContractKeys
  | stk => normalizeStkSymbols

/-- A set member as `list_fresh_on_demand_*` looks it up. -/
def Twin.member : Twin → String → String
  | opt, raw => strip raw
  | stk, raw => upper (strip raw)

/-! ## Redis -/

/-- What the twins ask of Redis. -/
inductive Call where
  | smembers
  | hgetall
  | sadd (keys : List String)
  | hset (mapping : Hash)
  | srem (keys : List String)
  | hdel (keys : List String)

/-- The type of the reply to a call. -/
@[reducible] def Reply : Call → Type
  | .smembers => List String
  | .hgetall => Hash
  | .sadd .. => Unit
  | .hset .. => Unit
  | .srem .. => Unit
  | .hdel .. => Unit

/-- The set and the hash of one twin. -/
structure Redis where
  members : List String
  beats : Hash

/-- The effect of a call and its reply. -/
def Redis.execute (db : Redis) : (c : Call) → Redis × Option (Reply c)
  | .smembers => (db, some db.members)
  | .hgetall => (db, some db.beats)
  | .sadd keys =>
      ({ db with members := db.members ++ keys.filter (· ∉ db.members) }, some ())
  | .hset mapping => ({ db with beats := RedisHash.hset db.beats mapping }, some ())
  | .srem keys => ({ db with members := db.members.filter (· ∉ keys) }, some ())
  | .hdel keys => ({ db with beats := RedisHash.hdel db.beats keys }, some ())

/-- A program over Redis. -/
abbrev Prog := Program Call Reply

/-- One call of Redis. -/
abbrev ask (c : Call) : Prog (Option (Reply c)) := Program.ask c

/-! ## The operations -/

/-- A time as a float. -/
structure Time where
  sec : ℚ
  double : nearest sec = .fin sec

/-- `str(ts)`. -/
def Time.text (ts : Time) : String := reprFloat (.fin ts.sec)

/-- The text of a time reads as the time again. -/
theorem Time.reads (ts : Time) : readFloat ts.text = some (.fin ts.sec) :=
  readFloat_reprFloat ts.double

/-- `ensure_on_demand_*`; `now` is the argument or the clock.  A pipeline that is no transaction
sends both commands, one after the other, whatever comes back; `none` where it raises. -/
def ensureOnDemand (twin : Twin) (client : Bool) (contractKeys : List String) (now : Time) :
    Prog (Option (List String)) :=
  let keys := twin.normalize contractKeys
  if !client ∨ keys = [] then pure (some [])
  else do
    let added ← ask (.sadd keys)
    let written ← ask (.hset (keys.map fun k => (k, now.text)))
    pure (if added.isSome ∧ written.isSome then some keys else none)

/-- The two times of one `list_fresh_on_demand_*`; `now` is the argument or the clock. -/
structure Listing where
  maxAge : ℚ
  now : ℚ
  deriving DecidableEq

/-- Whether a key with this heartbeat is fresh. -/
def Listing.fresh (l : Listing) (rawTs : Option String) : Bool :=
  match (rawTs.bind readFloat).getD (.fin 0) with
  | .fin last => 0 < last ∧ l.now - last ≤ l.maxAge
  | .posInf => true
  | _ => false

/-- The keys of the members that a listing goes through. -/
def Twin.keysOf (twin : Twin) (members : List String) : List String :=
  (members.map twin.member).filter (· ≠ "")

/-- The members whose heartbeat is fresh. -/
def Twin.freshKeys (twin : Twin) (l : Listing) (members : List String) (tsMap : Hash) :
    List String :=
  (twin.keysOf members).filter fun ck => l.fresh (tsMap.lookup ck)

/-- The members whose heartbeat is stale or missing. -/
def Twin.staleKeys (twin : Twin) (l : Listing) (members : List String) (tsMap : Hash) :
    List String :=
  (twin.keysOf members).filter fun ck => !l.fresh (tsMap.lookup ck)

/-- The removal of stale keys, given up where its first call fails. -/
def prune (stale : List String) : Prog Unit :=
  if stale = [] then pure ()
  else do
    let removed ← ask (.srem stale)
    if removed.isSome then discard (ask (.hdel stale)) else pure ()

/-- What `list_fresh_on_demand_*` does with the members it read. -/
def listMembers (twin : Twin) (l : Listing) (members : List String) : Prog (List String) :=
  if members = [] then pure []
  else do
    let tsMap ← ask .hgetall
    prune (twin.staleKeys l members (tsMap.getD []))
    pure (sortedBy id (twin.freshKeys l members (tsMap.getD [])))

/-- `list_fresh_on_demand_*`. -/
def listFreshOnDemand (twin : Twin) (client : Bool) (l : Listing) : Prog (List String) :=
  if !client then pure []
  else do
    let members ← ask .smembers
    listMembers twin l (members.getD [])

/-- One call of the module; a listing never raises. -/
inductive Operation where
  | ensure (client : Bool) (contractKeys : List String) (now : Time)
  | listFresh (client : Bool) (l : Listing)

/-- The program of an operation. -/
def Operation.program (twin : Twin) : Operation → Prog (Option (List String))
  | ensure client contractKeys now => ensureOnDemand twin client contractKeys now
  | listFresh client l => some <$> listFreshOnDemand twin client l

/-! ## Normal keys -/

/-- A key that a listing looks up under its own name. -/
def Twin.Normal (twin : Twin) (key : String) : Prop := twin.member key = key ∧ key ≠ ""

theorem normal_of_stkSymbol {raw key : String} (h : stkSymbol raw = some key) :
    Twin.stk.Normal key := by
  unfold stkSymbol at h
  dsimp only at h
  split_ifs at h with hskip
  obtain rfl := Option.some.inj h
  refine ⟨?_, fun hblank => hskip (.inl hblank)⟩
  show upper (strip (upper (strip raw))) = upper (strip raw)
  rw [strip_upper, strip_strip, upper_upper]

theorem normal_of_optContractKey {raw key : String} (h : optContractKey raw = some key) :
    Twin.opt.Normal key := by
  unfold optContractKey at h
  split at h
  case h_2 => cases h
  rename_i sym sec expiry strike right hparts
  split_ifs at h with hskip _ _
  obtain rfl := Option.some.inj h
  simp only [not_or, not_not] at hskip
  obtain ⟨hsym, -, -, hright⟩ := hskip
  -- the symbol is a stripped text that is not empty, and the right is a letter
  have hstripped : strip (upper sym) = upper sym := by
    obtain ⟨part, -, hpart⟩ := List.mem_map.1 (hparts ▸ List.mem_cons_self : sym ∈ _)
    rw [strip_upper, ← hpart, strip_strip]
  obtain ⟨a, as, ha⟩ :=
    List.exists_cons_of_ne_nil fun hnil => hsym (String.toList_eq_nil_iff.1 hnil)
  obtain ⟨z, hz, hspace⟩ : ∃ z, (upper right).toList = [z] ∧ isSpace z = false := by
    rcases List.mem_cons.1 hright with hr | hr
    · exact ⟨'C', by rw [hr]; rfl, by decide⟩
    · exact ⟨'P', by rw [List.mem_singleton.1 hr]; rfl, by decide⟩
  have hkey : (upper sym ++ "|OPT|" ++ expiry ++ "|" ++ strike ++ "|" ++ upper right).toList =
      a :: ((as ++ "|OPT|".toList ++ expiry.toList ++ "|".toList ++ strike.toList ++
        "|".toList) ++ [z]) := by
    simp only [String.toList_append, ha, hz, List.cons_append, List.append_assoc]
  refine ⟨strip_of_ends hkey (isSpace_of_strip hstripped ha) hspace, fun hblank => ?_⟩
  rw [hblank] at hkey
  cases hkey

/-- A registered key is one that a listing finds under its own name. -/
theorem normal_of_normalize {twin : Twin} {keys : List String} {key : String}
    (h : key ∈ twin.normalize keys) : twin.Normal key := by
  cases twin with
  | opt =>
    obtain ⟨raw, -, hraw⟩ := List.mem_filterMap.1 (mem_firstSeen.1 h)
    exact normal_of_optContractKey hraw
  | stk =>
    obtain ⟨raw, -, hraw⟩ := List.mem_filterMap.1 (mem_firstSeen.1 h)
    exact normal_of_stkSymbol hraw

example : normalizeOptContractKeys [" goog|opt| 20260717 |300.0|c", "GOOG|OPT|20260717|300.0|C",
    "GOOG|STK|||"] = ["GOOG|OPT|20260717|300.0|C"] := by decide +kernel

theorem mem_keysOf {twin : Twin} {members : List String} {key : String} (h : key ∈ members)
    (hnormal : twin.Normal key) : key ∈ twin.keysOf members := by
  refine List.mem_filter.2 ⟨List.mem_map.2 ⟨key, h, hnormal.1⟩, ?_⟩
  exact decide_eq_true hnormal.2

end Core.OnDemand
