import BifrostTrade.Lib.FloatRoundTrip
import BifrostTrade.Lib.Runs
import BifrostTrade.Persistence.DaemonRedis

/-!
# What is read back of the daemon's state

Writes of typed fields into the one state hash, and the state that is read after them.  A field is
encoded by the type of its value and decoded by its name; integers are decoded through a float, so a
state reads back as it was written exactly when a double holds every integer written last
(`readsBack_iff`).
-/

namespace Persistence.Daemon.DaemonState

open Py Calls Streams RedisHash Runs

/-! ## Writes -/

/-- The two fields that a write of None empties. -/
def emptiedFields : List String := ["subscribed_tickers", "last_control_message"]

/-- A field of a type table with a value of its type, a list of tickers, a control message, or None
for any of these. -/
def Typed (key : String) : StateValue → Prop
  | .none => key ∈ boolFields ++ intFields ++ floatFields ++ emptiedFields
  | .bool _ => key ∈ boolFields
  | .int _ => key ∈ intFields
  | .float x => key ∈ floatFields ∧ x.IsBinary64
  | .text _ => key = "last_control_message"
  | .list _ => key = "subscribed_tickers"

/-- The fields of one `write_trading_daemon_state`. -/
structure Write where
  fields : List (String × StateValue)
  nodup : (fields.map Prod.fst).Nodup
  typed : ∀ f ∈ fields, Typed f.1 f.2

/-- A value that is written: None is skipped where it does not empty the field. -/
def Kept (key : String) (v : StateValue) : Prop := v ≠ .none ∨ key ∈ emptiedFields

instance (key : String) (v : StateValue) : Decidable (Kept key v) :=
  inferInstanceAs (Decidable (_ ∨ _))

/-- What a write gives a field. -/
def Write.gives (w : Write) (key : String) : Option StateValue :=
  (w.fields.lookup key).filter fun v => Kept key v

/-- The last value that was written to a field. -/
def lastWritten (writes : List Write) (key : String) : Option StateValue :=
  writes.foldl (fun last w => (w.gives key).or last) none

/-- A value as it should be read; None is an empty list or text. -/
def asRead (key : String) : StateValue → Decoded
  | .none => if key = "subscribed_tickers" then .list [] else .text ""
  | .bool b => .bool b
  | .int n => .int n
  | .float x => .float x
  | .text s => .text s
  | .list texts => .list texts

/-! ## The run -/

/-- Redis, with nothing to tell of a caller. -/
def serve (pendingNil : Bool) (_ : Unit) (w : Choice) (db : Redis) (c : Call) :
    Redis × Unit × Option (Reply c) :=
  let r := db.answer pendingNil w c
  (r.1, (), r.2)

/-- Redis after a write in which no call fails. -/
def write (pendingNil : Bool) (db : Redis) (w : Write) : Redis :=
  (complete (serve pendingNil) Choice.ok (writeTradingDaemonState w.fields) () db).1

/-- What `read_trading_daemon_state` returns after the writes; the hash was empty before them. -/
def stateAfter (pendingNil : Bool) (clock : ℚ) (control : Stream ControlFields)
    (writes : List Write) : Option (List (String × Decoded)) :=
  (complete (serve pendingNil) Choice.ok readTradingDaemonState ()
    (run (write pendingNil) ⟨clock, [], control⟩ writes)).2.2

/-- Every field reads as what was last written to it, and no other field is there. -/
def ReadsBack (pendingNil : Bool) (clock : ℚ) (control : Stream ControlFields)
    (writes : List Write) : Prop :=
  ∀ key, ((stateAfter pendingNil clock control writes).getD []).lookup key =
    (lastWritten writes key).map (asRead key)

/-! ## One value -/

theorem not_mem_of_bool {key : String} (h : key ∈ boolFields) :
    key ∉ emptyTextFields ∧ key ≠ "subscribed_tickers" := by
  revert key
  decide

theorem not_mem_of_int {key : String} (h : key ∈ intFields) :
    key ∉ emptyTextFields ∧ key ≠ "subscribed_tickers" ∧ key ∉ boolFields := by
  revert key
  decide

theorem not_mem_of_float {key : String} (h : key ∈ floatFields) :
    key ∉ emptyTextFields ∧ key ≠ "subscribed_tickers" ∧ key ∉ boolFields ∧ key ∉ intFields := by
  revert key
  decide

theorem decodeValue_bool {key : String} (h : key ∈ boolFields) (b : Bool) :
    decodeValue key (toRedisStr (.bool b)) = some (.bool b) := by
  obtain ⟨-, hne⟩ := not_mem_of_bool h
  cases b <;> simp [decodeValue, toRedisStr, h, hne]

theorem decodeValue_float {key : String} (h : key ∈ floatFields) {x : Double}
    (hx : x.IsBinary64) : decodeValue key (toRedisStr (.float x)) = some (.float x) := by
  obtain ⟨-, hne, hbool, hint⟩ := not_mem_of_float h
  have hx := readFloat_reprFloat_of_isBinary64 hx
  simp [decodeValue, toRedisStr, ne_empty_of_readFloat hx, hne, hbool, hint, h, hx]

/-- An integer reads back exactly when a double holds it. -/
theorem decodeValue_int {key : String} (h : key ∈ intFields) (n : ℤ) :
    decodeValue key (toRedisStr (.int n)) = some (.int n) ↔ FloatExact n := by
  obtain ⟨-, hne, hbool⟩ := not_mem_of_int h
  have hread := readFloat_toString n
  have hdecode : decodeValue key (toRedisStr (.int n)) =
      if (nearest n).isInf then none
      else some ((nearest n).toInt.elim Decoded.none Decoded.int) := by
    rw [toRedisStr, decodeValue, if_neg fun hempty => ne_empty_of_readFloat hread hempty.1,
      if_neg hne, if_neg hbool, if_pos h, hread]
  rw [hdecode, ← toInt_nearest_iff]
  cases nearest n with
  | fin x => simp [Double.isInf, Double.toInt]
  | posInf => simp [Double.isInf, Double.toInt]
  | negInf => simp [Double.isInf, Double.toInt]
  | nan => simp [Double.isInf, Double.toInt]

theorem decodeValue_list (texts : List String) :
    decodeValue "subscribed_tickers" (toRedisStr (.list texts)) = some (.list texts) := by
  have hmem : "subscribed_tickers" ∈ emptyTextFields := by decide
  simp [decodeValue, toRedisStr, hmem, Json.loadsTexts_dumpsTexts]

theorem decodeValue_text (s : String) :
    decodeValue "last_control_message" s = some (.text s) := by
  have hmem : "last_control_message" ∈ emptyTextFields := by decide
  have htables : "last_control_message" ∉ boolFields ∧ "last_control_message" ∉ intFields ∧
      "last_control_message" ∉ floatFields := by decide
  simp [decodeValue, hmem, htables]

/-- A written value reads back, an integer exactly when a double holds it. -/
theorem decodeValue_iff {key : String} {v : StateValue} (htyped : Typed key v)
    (hkept : Kept key v) :
    decodeValue key (toRedisStr v) = some (asRead key v) ↔
      ∀ n, v = .int n → FloatExact n := by
  cases v with
  | none =>
    have hkey : key ∈ emptiedFields := hkept.resolve_left fun h => h rfl
    have hempty : ∀ k ∈ emptiedFields,
        decodeValue k (toRedisStr .none) = some (asRead k .none) := by decide +kernel
    simp [hempty key hkey]
  | bool b => simpa [asRead] using decodeValue_bool htyped b
  | int n => simpa [asRead] using decodeValue_int htyped n
  | float x => simpa [asRead] using decodeValue_float htyped.1 htyped.2
  | text s =>
    obtain rfl : key = "last_control_message" := htyped
    simpa [asRead, toRedisStr] using decodeValue_text s
  | list texts =>
    obtain rfl : key = "subscribed_tickers" := htyped
    simpa [asRead] using decodeValue_list texts

/-! ## The hash after the writes -/

theorem encodeMapping_eq (fields : List (String × StateValue)) :
    encodeMapping fields =
      (fields.filter fun f => Kept f.1 f.2).map fun f => (f.1, toRedisStr f.2) := rfl

theorem keys_encodeMapping_nodup (w : Write) : ((encodeMapping w.fields).map Prod.fst).Nodup := by
  have hkeys : (encodeMapping w.fields).map Prod.fst =
      (w.fields.filter fun f => Kept f.1 f.2).map Prod.fst := by
    rw [encodeMapping_eq, List.map_map]
    rfl
  rw [hkeys]
  exact w.nodup.sublist (List.filter_sublist.map _)

/-- What is written for a field is the text of what the write gives. -/
theorem lookup_encodeMapping {fields : List (String × StateValue)}
    (h : (fields.map Prod.fst).Nodup) (key : String) :
    (encodeMapping fields).lookup key =
      ((fields.lookup key).filter fun v => Kept key v).map toRedisStr := by
  induction fields with
  | nil => rfl
  | cons f fields ih =>
    rw [List.map_cons, List.nodup_cons] at h
    by_cases hkept : Kept f.1 f.2
    · have hencode : encodeMapping (f :: fields) =
          (f.1, toRedisStr f.2) :: encodeMapping fields := by
        simp [encodeMapping_eq, hkept]
      rw [hencode, List.lookup_cons, List.lookup_cons]
      by_cases hkey : key = f.1
      · subst hkey
        simp [Option.filter, hkept]
      · rw [beq_false_of_ne hkey]
        exact ih h.2
    · have hencode : encodeMapping (f :: fields) = encodeMapping fields := by
        simp [encodeMapping_eq, hkept]
      rw [hencode, ih h.2, List.lookup_cons]
      by_cases hkey : key = f.1
      · subst hkey
        simp [Option.filter, hkept, lookup_eq_none_iff.2 h.1]
      · rw [beq_false_of_ne hkey]

theorem state_write (pendingNil : Bool) (db : Redis) (w : Write) :
    (write pendingNil db w).state = hset db.state (encodeMapping w.fields) := by
  rw [write, writeTradingDaemonState]
  by_cases hempty : encodeMapping w.fields = []
  · rw [if_pos hempty, hempty]
    simp [complete, hset]
  · rw [if_neg hempty]
    rfl

theorem lastWritten_snoc (writes : List Write) (w : Write) (key : String) :
    lastWritten (writes ++ [w]) key = (w.gives key).or (lastWritten writes key) := by
  simp [lastWritten]

/-- What a write gives a field is typed, and is written. -/
theorem typed_of_gives {w : Write} {key : String} {v : StateValue} (h : w.gives key = some v) :
    Typed key v ∧ Kept key v := by
  rw [Write.gives, Option.filter_eq_some_iff] at h
  obtain ⟨before, after, heq, -⟩ := List.lookup_eq_some_iff.1 h.1
  have hmem : (key, v) ∈ w.fields := by
    rw [heq]
    simp
  exact ⟨w.typed _ hmem, of_decide_eq_true h.2⟩

theorem typed_of_lastWritten {writes : List Write} {key : String} {v : StateValue}
    (h : lastWritten writes key = some v) : Typed key v ∧ Kept key v := by
  induction writes using List.reverseRecOn with
  | nil => cases h
  | append_singleton writes w ih =>
    rw [lastWritten_snoc, Option.or_eq_some_iff] at h
    rcases h with hgives | ⟨-, hlast⟩
    · exact typed_of_gives hgives
    · exact ih hlast

section Run

variable (pendingNil : Bool) (clock : ℚ) (control : Stream ControlFields) (writes : List Write)

/-- The hash holds the text of what was last written to each field. -/
theorem lookup_state (key : String) :
    (run (write pendingNil) ⟨clock, [], control⟩ writes).state.lookup key =
      (lastWritten writes key).map toRedisStr := by
  induction writes using List.reverseRecOn with
  | nil => rfl
  | append_singleton writes w ih =>
    rw [run_snoc, state_write, lookup_hset, ih, lookup_encodeMapping w.nodup, lastWritten_snoc,
      Option.map_or, Write.gives]

theorem nodup_state :
    ((run (write pendingNil) ⟨clock, [], control⟩ writes).state.map Prod.fst).Nodup := by
  induction writes using List.reverseRecOn with
  | nil => exact List.nodup_nil
  | append_singleton writes w ih =>
    rw [run_snoc, state_write]
    exact nodup_hset ih (keys_encodeMapping_nodup w)

/-- A read decodes the hash. -/
theorem stateAfter_eq :
    (stateAfter pendingNil clock control writes).getD [] =
      (decodeHash (run (write pendingNil) ⟨clock, [], control⟩ writes).state).getD [] := by
  have hread : stateAfter pendingNil clock control writes =
      if (run (write pendingNil) ⟨clock, [], control⟩ writes).state = [] then none
      else decodeHash (run (write pendingNil) ⟨clock, [], control⟩ writes).state := rfl
  rw [hread]
  split
  · rename_i hempty
    rw [hempty]
    rfl
  · rfl

variable {writes}

/-- Where doubles hold the integers every entry of the hash is decoded to what was written. -/
theorem readsBack_of_exact
    (hexact : ∀ key n, lastWritten writes key = some (.int n) → FloatExact n) :
    ReadsBack pendingNil clock control writes := by
  have hlookup := lookup_state pendingNil clock control writes
  have hnodup := nodup_state pendingNil clock control writes
  rw [ReadsBack, stateAfter_eq]
  generalize (run (write pendingNil) ⟨clock, [], control⟩ writes).state = raw at hlookup hnodup ⊢
  have hvalue : ∀ key v, lastWritten writes key = some v →
      decodeValue key (toRedisStr v) = some (asRead key v) := by
    intro key v hv
    obtain ⟨htyped, hkept⟩ := typed_of_lastWritten hv
    exact (decodeValue_iff htyped hkept).2 fun n hn => hexact key n (hn ▸ hv)
  have hentry : ∀ f ∈ raw, decodeValue f.1 f.2 ≠ none := by
    intro f hf
    have hf' := hlookup f.1
    rw [lookup_of_mem hnodup hf, eq_comm, Option.map_eq_some_iff] at hf'
    obtain ⟨v, hv, hraw⟩ := hf'
    rw [← hraw, hvalue f.1 v hv]
    exact Option.some_ne_none _
  obtain ⟨state, hstate⟩ := exists_decodeHash hentry
  intro key
  rw [hstate, Option.getD_some, (lookup_decodeHash hstate key).1, hlookup]
  cases hv : lastWritten writes key with
  | none => rfl
  | some v => exact hvalue key v hv

/-- A state that reads back holds the integers as they were written. -/
theorem exact_of_readsBack (h : ReadsBack pendingNil clock control writes) {key : String} {n : ℤ}
    (hn : lastWritten writes key = some (.int n)) : FloatExact n := by
  have hkey := h key
  rw [stateAfter_eq, hn] at hkey
  obtain ⟨htyped, hkept⟩ := typed_of_lastWritten hn
  cases hstate : decodeHash (run (write pendingNil) ⟨clock, [], control⟩ writes).state with
  | none =>
    rw [hstate] at hkey
    cases hkey
  | some state =>
    rw [hstate, Option.getD_some, (lookup_decodeHash hstate key).1, lookup_state, hn] at hkey
    exact (decodeValue_iff htyped hkept).1 hkey n rfl

variable (writes)

/-- **The state reads back.**  After typed writes every field reads as the last value that was
written to it and no other field is there exactly when a double holds every integer that was written
last. -/
theorem readsBack_iff :
    ReadsBack pendingNil clock control writes ↔
      ∀ key n, lastWritten writes key = some (.int n) → FloatExact n :=
  ⟨fun h _ _ hn => exact_of_readsBack pendingNil clock control h hn,
    readsBack_of_exact pendingNil clock control⟩

end Run

/-- An integer field that holds `2 ^ 53 + 1`. -/
def largeVersion : Write where
  fields := [("last_sync_version", .int 9007199254740993)]
  nodup := List.nodup_singleton _
  typed f hf := by
    obtain rfl := List.mem_singleton.1 hf
    exact (by decide : "last_sync_version" ∈ intFields)

/-- The version reads back one smaller. -/
theorem not_readsBack_large_version :
    ¬ ReadsBack false 0 Stream.empty [largeVersion] := by
  intro h
  have hread : ((stateAfter false 0 Stream.empty [largeVersion]).getD []).lookup
      "last_sync_version" = some (.int 9007199254740992) := by decide +kernel
  have hlast : lastWritten [largeVersion] "last_sync_version" =
      some (.int 9007199254740993) := by decide +kernel
  have hkey := h "last_sync_version"
  rw [hread, hlast] at hkey
  exact absurd hkey (by decide)

end Persistence.Daemon.DaemonState
