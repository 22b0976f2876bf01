import BifrostTrade.Lib.Binary64
import BifrostTrade.Lib.Json

/-!
# JSON values

`json.loads` of any text, and `json.dumps` of an object of scalars with sorted keys.  The reader
takes what is beyond the standard as Python's does: `NaN` and the infinities, repeated keys, where
the last value counts, and halves of surrogate pairs.  It reads what the writer writes
(`loads_dumpsObject`), and one unit of fuel for each character is enough (`readValue_of_lt`).
-/

namespace Py.Json

/-- A value that was read.  A text may hold lone surrogates, so it is its code points. -/
inductive Value where
  | null
  | bool (b : Bool)
  | int (n : ℤ)
  | float (x : Double)
  | text (points : List ℕ)
  | array (items : List Value)
  | object (members : List (List ℕ × Value))

/-! ## Reading -/

/-- The code points of code units, a pair of surrogates joined. -/
def pointsOf : List ℕ → List ℕ
  | high :: low :: rest =>
      if (55296 ≤ high ∧ high < 56320) ∧ 56320 ≤ low ∧ low < 57344 then
        (65536 + (high - 55296) * 1024 + (low - 56320)) :: pointsOf rest
      else high :: pointsOf (low :: rest)
  | units => units

/-- The digits that `int` of a text takes. -/
def maxIntDigits : ℕ := 4300

/-- An exponent at the start, with at least one digit. -/
def scanExponent : List Char → List Char
  | e :: cs =>
      let sign := cs.takeWhile fun c => c = '+' ∨ c = '-'
      let digits := (cs.drop sign.length).takeWhile Char.isDigit
      if (e = 'e' ∨ e = 'E') ∧ sign.length ≤ 1 ∧ digits ≠ [] then e :: sign ++ digits else []
  | [] => []

/-- A fraction at the start, with at least one digit. -/
def scanFraction : List Char → List Char
  | '.' :: cs =>
      let digits := cs.takeWhile Char.isDigit
      if digits ≠ [] then '.' :: digits else []
  | _ => []

/-- The digits of a number before its point; a zero is alone. -/
def scanWhole : List Char → List Char
  | '0' :: _ => ['0']
  | cs => cs.takeWhile Char.isDigit

/-- A number without its sign. -/
def readUnsigned (neg : Bool) (cs : List Char) : Option (Value × List Char) :=
  let whole := scanWhole cs
  let rest := cs.drop whole.length
  let frac := scanFraction rest
  let exp := scanExponent (rest.drop frac.length)
  let rest := rest.drop (frac.length + exp.length)
  if whole = [] then none
  else if frac = [] ∧ exp = [] then
    let n : ℤ := digitsValue (whole.map fun c => c.toNat - 48)
    if maxIntDigits < whole.length then none else some (.int (if neg then -n else n), rest)
  else
    let sign := if neg then ['-'] else []
    (readFloat (String.ofList (sign ++ whole ++ frac ++ exp))).map fun x => (.float x, rest)

/-- The words of the reader. -/
def words : List (List Char × Value) :=
  [("null".toList, .null), ("true".toList, .bool true), ("false".toList, .bool false),
    ("NaN".toList, .float .nan), ("Infinity".toList, .float .posInf),
    ("-Infinity".toList, .float .negInf)]

/-- A value that is no text, list or object. -/
def readPlain (cs : List Char) : Option (Value × List Char) :=
  match words.find? fun w => w.1.isPrefixOf cs with
  | some w => some (w.2, cs.drop w.1.length)
  | none =>
      match cs with
      | '-' :: cs => readUnsigned true cs
      | cs => readUnsigned false cs

/-- A text from its opening quote. -/
def readPoints : List Char → Option (List ℕ × List Char)
  | '"' :: cs => (scanText cs).map fun r => (pointsOf r.1, r.2)
  | _ => none

/-- Items between commas, up to a closing character. -/
def readUntil {α : Type} (close : Char) (one : List Char → Option (α × List Char)) :
    ℕ → List Char → Option (List α × List Char)
  | 0, _ => none
  | fuel + 1, cs =>
      (one (skipSpace cs)).bind fun r =>
        match skipSpace r.2 with
        | c :: rest =>
            if c = close then some ([r.1], rest)
            else if c = ',' then
              (readUntil close one fuel rest).map fun r' => (r.1 :: r'.1, r'.2)
            else none
        | [] => none

/-- A key, a colon and a value. -/
def readMember (read : List Char → Option (Value × List Char)) (cs : List Char) :
    Option ((List ℕ × Value) × List Char) :=
  (readPoints cs).bind fun k =>
    match skipSpace k.2 with
    | ':' :: rest => (read (skipSpace rest)).map fun v => ((k.1, v.1), v.2)
    | _ => none

/-- `d[key] = value`. -/
def setKey (members : List (List ℕ × Value)) (m : List ℕ × Value) : List (List ℕ × Value) :=
  if members.any fun e => e.1 = m.1 then
    members.map fun e => if e.1 = m.1 then (e.1, m.2) else e
  else members ++ [m]

/-- The `dict` of members: the last value of a key counts. -/
def dictOf (members : List (List ℕ × Value)) : List (List ℕ × Value) := members.foldl setKey []

/-- A value from the start of a text, with lists and objects nested no deeper than the fuel, and
what follows it. -/
def readValue : ℕ → List Char → Option (Value × List Char)
  | 0, _ => none
  | fuel + 1, cs =>
      match cs with
      | '"' :: _ => (readPoints cs).map fun r => (.text r.1, r.2)
      | '[' :: rest =>
          match skipSpace rest with
          | ']' :: rest => some (.array [], rest)
          | rest => (readUntil ']' (readValue fuel) fuel rest).map fun r => (.array r.1, r.2)
      | '\x7b' :: rest =>
          match skipSpace rest with
          | '\x7d' :: rest => some (.object [], rest)
          | rest =>
              (readUntil '\x7d' (readMember (readValue fuel)) fuel rest).map fun r =>
                (.object (dictOf r.1), r.2)
      | cs => readPlain cs

/-- `json.loads(s)`; `none` where it raises `ValueError`. -/
def loads (cs : List Char) : Option Value :=
  if cs.head? = some '\ufeff' then none
  else (readValue (cs.length + 1) (skipSpace cs)).bind fun r =>
    if skipSpace r.2 = [] then some r.1 else none

/-! ## Writing -/

/-- A scalar to be written. -/
inductive Scalar where
  | null
  | int (n : ℤ)
  | text (s : String)
  deriving DecidableEq

/-- The scalar as a value. -/
def Scalar.value : Scalar → Value
  | .null => .null
  | .int n => .int n
  | .text s => .text (s.toList.map Char.toNat)

/-- A scalar as `dumps` writes it. -/
def dumpsScalar : Scalar → List Char
  | .null => "null".toList
  | .int n => (toString n).toList
  | .text s => dumpsText s

/-- A member as `dumps` writes it. -/
def dumpsMember (m : String × Scalar) : List Char := dumpsText m.1 ++ ':' :: dumpsScalar m.2

/-- The members in the order of their keys. -/
def sortKeys (members : List (String × Scalar)) : List (String × Scalar) :=
  members.insertionSort fun m n => m.1 ≤ n.1

/-- An object of the members in their order. -/
def dumpsInOrder (members : List (String × Scalar)) : List Char :=
  '\x7b' :: [','].intercalate (members.map dumpsMember) ++ ['\x7d']

/-- `json.dumps(members, separators=(",", ":"), sort_keys=True)`. -/
def dumpsObject (members : List (String × Scalar)) : List Char := dumpsInOrder (sortKeys members)

/-! ## Reading texts and numbers that were written -/

theorem pointsOf_unitsOf (c : Char) (rest : List ℕ) :
    pointsOf (unitsOf c ++ rest) = c.toNat :: pointsOf rest := by
  have hrange := toNat_lt c
  have hvalid := not_surrogate c
  unfold unitsOf
  dsimp only
  split_ifs with hbmp
  · cases rest with
    | nil => rfl
    | cons low rest => rw [List.singleton_append, pointsOf, if_neg (by omega)]
  · have hpair : 65536 + (55296 + (c.toNat - 65536) / 1024 - 55296) * 1024 +
        (56320 + (c.toNat - 65536) % 1024 - 56320) = c.toNat := by omega
    rw [List.cons_append, List.singleton_append, pointsOf, if_pos (by omega), hpair]

theorem pointsOf_flatMap (cs : List Char) : pointsOf (cs.flatMap unitsOf) = cs.map Char.toNat := by
  induction cs with
  | nil => rfl
  | cons c cs ih => rw [List.flatMap_cons, pointsOf_unitsOf, ih, List.map_cons]

/-- A text that was written is read as its code points. -/
theorem readPoints_dumpsText (s : String) (rest : List Char) :
    readPoints (dumpsText s ++ rest) = some (s.toList.map Char.toNat, rest) := by
  have htext : dumpsText s ++ rest = '"' :: (s.toList.flatMap escapeChar ++ '"' :: rest) := by
    simp [dumpsText]
  rw [htext, readPoints, scanText_flatMap, Option.map_some, pointsOf_flatMap]

/-- A positive number starts with no zero. -/
theorem head_toDigits_ne_zero {n : ℕ} (hn : 0 < n) : (Nat.toDigits 10 n).head? ≠ some '0' := by
  have hchar : ∀ d : Fin 10, 0 < d.val → Nat.digitChar d.val ≠ '0' := by decide
  induction n using Nat.strongRecOn with
  | ind n ih =>
    rw [Nat.toDigits_eq_if (by decide)]
    split_ifs with hlt
    · intro hhead
      exact hchar ⟨n, hlt⟩ hn (Option.some.inj hhead)
    · have hrest := ih (n / 10) (by omega) (by omega)
      rwa [List.head?_append_of_ne_nil _ Nat.toDigits_ne_nil]

/-- The characters that end a number. -/
def EndsNumber (c : Char) : Prop := c.isDigit = false ∧ c ≠ '.' ∧ c ≠ 'e' ∧ c ≠ 'E'

theorem takeWhile_isDigit {ds : List Char} (h : ∀ c ∈ ds, c.isDigit = true) {e : Char}
    (he : e.isDigit = false) (rest : List Char) :
    (ds ++ e :: rest).takeWhile Char.isDigit = ds := by
  rw [List.takeWhile_append_of_pos h, List.takeWhile_cons_of_neg (by simp [he]), List.append_nil]

theorem scanWhole_toDigits (n : ℕ) {e : Char} (he : e.isDigit = false) (rest : List Char) :
    scanWhole (Nat.toDigits 10 n ++ e :: rest) = Nat.toDigits 10 n := by
  rcases Nat.eq_zero_or_pos n with rfl | hn
  · rfl
  · obtain ⟨c, cs, hcs⟩ := List.exists_cons_of_ne_nil (@Nat.toDigits_ne_nil n 10)
    have hzero := head_toDigits_ne_zero hn
    have htake := takeWhile_isDigit (@isDigit_of_mem_toDigits n) he rest
    rw [hcs] at hzero htake ⊢
    rw [List.cons_append] at htake ⊢
    rw [scanWhole, htake]
    rintro _ h
    exact hzero (congrArg some (List.cons.inj h).1)

theorem scanFraction_of_ne {e : Char} (he : e ≠ '.') (rest : List Char) :
    scanFraction (e :: rest) = [] := by
  rw [scanFraction]
  rintro _ h
  exact he (List.cons.inj h).1

theorem scanExponent_of_ne {e : Char} (he : e ≠ 'e' ∧ e ≠ 'E') (rest : List Char) :
    scanExponent (e :: rest) = [] := by
  rw [scanExponent]
  exact if_neg fun h => h.1.elim he.1 he.2

theorem readUnsigned_toDigits (neg : Bool) {n : ℕ} (hn : (Nat.toDigits 10 n).length ≤ maxIntDigits)
    {e : Char} (he : EndsNumber e) (rest : List Char) :
    readUnsigned neg (Nat.toDigits 10 n ++ e :: rest) =
      some (.int (if neg then -(n : ℤ) else n), e :: rest) := by
  rw [readUnsigned, scanWhole_toDigits n he.1, List.drop_left]
  dsimp only
  rw [scanFraction_of_ne he.2.1, List.length_nil, List.drop_zero, scanExponent_of_ne he.2.2,
    if_neg Nat.toDigits_ne_nil, if_pos ⟨rfl, rfl⟩, if_neg (by omega), digitsValue_toDigits]
  rfl

/-- Whether a text starts as a number does. -/
def startsNumber : List Char → Bool
  | '-' :: c :: _ => c.isDigit
  | c :: _ :: _ => c.isDigit
  | _ => false

theorem startsNumber_append {a b : Char} (ws rest : List Char) :
    startsNumber (a :: b :: ws ++ rest) = startsNumber (a :: b :: ws) := by
  by_cases ha : a = '-'
  · subst ha
    rfl
  · rw [List.cons_append, List.cons_append, startsNumber, startsNumber]
    · exact ha
    · exact ha

/-- No word starts as a number does. -/
theorem find_words {cs : List Char} (h : startsNumber cs = true) :
    words.find? (fun w => w.1.isPrefixOf cs) = none := by
  have hwords : ∀ w ∈ words, 2 ≤ w.1.length ∧ startsNumber w.1 = false := by decide
  refine List.find?_eq_none.2 fun w hw hpre => ?_
  obtain ⟨hlength, hnot⟩ := hwords w hw
  obtain ⟨rest, rfl⟩ := List.isPrefixOf_iff_prefix.1 hpre
  obtain ⟨a, b, ws, hws⟩ : ∃ a b ws, w.1 = a :: b :: ws := by
    rcases hw1 : w.1 with _ | ⟨a, _ | ⟨b, ws⟩⟩
    · simp [hw1] at hlength
    · simp [hw1] at hlength
    · exact ⟨a, b, ws, rfl⟩
  rw [hws, startsNumber_append, ← hws, hnot] at h
  cases h

theorem startsNumber_toDigits (n : ℕ) (e : Char) (rest : List Char) :
    startsNumber (Nat.toDigits 10 n ++ e :: rest) = true ∧
      startsNumber ('-' :: (Nat.toDigits 10 n ++ e :: rest)) = true := by
  obtain ⟨c, cs, hcs⟩ := List.exists_cons_of_ne_nil (@Nat.toDigits_ne_nil n 10)
  have hdigit := isDigit_of_mem_toDigits c (hcs ▸ List.mem_cons_self ..)
  have hminus : c ≠ '-' := by
    rintro rfl
    cases hdigit
  rw [hcs]
  refine ⟨?_, hdigit⟩
  cases cs with
  | nil =>
    rw [List.singleton_append, startsNumber]
    · exact hdigit
    · exact hminus
  | cons d cs =>
    rw [List.cons_append, List.cons_append, startsNumber]
    · exact hdigit
    · exact hminus

/-- An integer that was written is read up to the character that ends it. -/
theorem readPlain_toString {n : ℤ} (hn : (Nat.toDigits 10 n.natAbs).length ≤ maxIntDigits)
    {e : Char} (he : EndsNumber e) (rest : List Char) :
    readPlain ((toString n).toList ++ e :: rest) = some (.int n, e :: rest) := by
  obtain ⟨hplain, hsigned⟩ := startsNumber_toDigits n.natAbs e rest
  rw [toList_toString]
  by_cases hneg : n < 0
  · rw [if_pos hneg, List.singleton_append, List.cons_append, readPlain, find_words hsigned]
    dsimp only
    have hvalue : -(n.natAbs : ℤ) = n := by omega
    rw [readUnsigned_toDigits true hn he, if_pos rfl, hvalue]
  · have hvalue : (n.natAbs : ℤ) = n := by omega
    have hdigit := isDigit_of_mem_toDigits (n := n.natAbs) '-'
    rw [if_neg hneg, List.nil_append, readPlain, find_words hplain]
    · dsimp only
      rw [readUnsigned_toDigits false hn he, if_neg Bool.false_ne_true, hvalue]
    · intro cs heq
      obtain ⟨c, ds, hds⟩ := List.exists_cons_of_ne_nil (@Nat.toDigits_ne_nil n.natAbs 10)
      rw [hds] at heq hdigit
      rw [List.cons_append] at heq
      rw [(List.cons.inj heq).1] at hdigit
      exact absurd (hdigit List.mem_cons_self) (by decide)

/-! ## Reading objects that were written -/

/-- A scalar that `json.dumps` writes and `json.loads` takes: its digits are not too many. -/
def Scalar.Fits : Scalar → Prop
  | .int n => (Nat.toDigits 10 n.natAbs).length ≤ maxIntDigits
  | _ => True

/-- A value whose first character opens no text, list or object. -/
theorem readValue_plain (fuel : ℕ) {c : Char} (h : c ≠ '"' ∧ c ≠ '[' ∧ c ≠ '\x7b')
    (cs : List Char) : readValue (fuel + 1) (c :: cs) = readPlain (c :: cs) := by
  rw [readValue]
  · exact fun _ heq => h.1 (List.cons.inj heq).1
  · exact fun _ heq => h.2.1 (List.cons.inj heq).1
  · exact fun _ heq => h.2.2 (List.cons.inj heq).1

theorem head_toString (n : ℤ) : ∃ c cs, (toString n).toList = c :: cs ∧ IsNumeric c := by
  obtain ⟨c, cs, hcs⟩ := List.exists_cons_of_ne_nil (@Nat.toDigits_ne_nil n.natAbs 10)
  rw [toList_toString]
  by_cases hneg : n < 0
  · rw [if_pos hneg]
    exact ⟨'-', _, rfl, .inr (by decide)⟩
  · rw [if_neg hneg, hcs]
    exact ⟨c, cs, rfl, .inl (isDigit_of_mem_toDigits c (hcs ▸ List.mem_cons_self ..))⟩

theorem ne_of_isNumeric {c d : Char} (h : IsNumeric c) (hdigit : d.isDigit = false)
    (hsign : d ∉ ['-', '+', '.', 'e']) : c ≠ d := by
  rintro rfl
  rcases h with h | h
  · rw [hdigit] at h
    cases h
  · exact hsign h

/-- A scalar that was written is read up to the character that ends it. -/
theorem readValue_dumpsScalar (fuel : ℕ) {s : Scalar} (hs : s.Fits) {e : Char} (he : EndsNumber e)
    (rest : List Char) :
    readValue (fuel + 1) (dumpsScalar s ++ e :: rest) = some (s.value, e :: rest) := by
  cases s with
  | null => rfl
  | int n =>
    obtain ⟨c, cs, hcs, hc⟩ := head_toString n
    have hread := readPlain_toString hs he rest
    rw [dumpsScalar]
    rw [hcs, List.cons_append] at hread ⊢
    have hplain : c ≠ '"' ∧ c ≠ '[' ∧ c ≠ '\x7b' :=
      ⟨ne_of_isNumeric hc (by decide) (by decide), ne_of_isNumeric hc (by decide) (by decide),
        ne_of_isNumeric hc (by decide) (by decide)⟩
    rw [readValue_plain fuel hplain, hread]
    rfl
  | text s =>
    have hread := readPoints_dumpsText s (e :: rest)
    rw [dumpsScalar]
    obtain ⟨cs, hcs⟩ : ∃ cs, dumpsText s = '"' :: cs := ⟨_, rfl⟩
    rw [hcs, List.cons_append] at hread ⊢
    rw [readValue, hread]
    rfl

theorem skipSpace_dumpsScalar (s : Scalar) (rest : List Char) :
    skipSpace (dumpsScalar s ++ rest) = dumpsScalar s ++ rest := by
  cases s with
  | null => rfl
  | int n =>
    obtain ⟨c, cs, hcs, hc⟩ := head_toString n
    have hspace : isJsonSpace c = false := by
      have hne : ∀ d ∈ [' ', '\t', '\n', '\r'], c ≠ d := by
        intro d hd
        have hall : ∀ d ∈ [' ', '\t', '\n', '\r'],
            d.isDigit = false ∧ d ∉ ['-', '+', '.', 'e'] := forall_of_all (by decide)
        exact ne_of_isNumeric hc (hall d hd).1 (hall d hd).2
      simpa [isJsonSpace] using hne
    rw [dumpsScalar, hcs, List.cons_append, skipSpace_cons hspace]
  | text s => exact skipSpace_dumpsText s rest

/-- What a member is read as. -/
def memberValue (m : String × Scalar) : List ℕ × Value := (m.1.toList.map Char.toNat, m.2.value)

theorem readMember_dumpsMember (fuel : ℕ) {m : String × Scalar} (hm : m.2.Fits) {e : Char}
    (he : EndsNumber e) (rest : List Char) :
    readMember (readValue (fuel + 1)) (dumpsMember m ++ e :: rest) =
      some (memberValue m, e :: rest) := by
  have hcolon : isJsonSpace ':' = false := by decide
  rw [dumpsMember, List.append_assoc, List.cons_append, readMember, readPoints_dumpsText,
    Option.bind_some, skipSpace_cons hcolon]
  show (readValue (fuel + 1) (skipSpace (dumpsScalar m.2 ++ e :: rest))).map _ = _
  rw [skipSpace_dumpsScalar, readValue_dumpsScalar fuel hm he, Option.map_some]
  rfl

theorem skipSpace_dumpsMember (m : String × Scalar) (rest : List Char) :
    skipSpace (dumpsMember m ++ rest) = dumpsMember m ++ rest := by
  rw [dumpsMember, List.append_assoc]
  exact skipSpace_dumpsText m.1 _

/-- The members of an object that was written. -/
theorem readUntil_dumpsMembers (depth : ℕ) (m : String × Scalar) (members : List (String × Scalar))
    (hfits : ∀ k ∈ m :: members, k.2.Fits) {fuel : ℕ} (hfuel : members.length < fuel)
    (rest : List Char) :
    readUntil '\x7d' (readMember (readValue (depth + 1))) fuel
        ([','].intercalate ((m :: members).map dumpsMember) ++ '\x7d' :: rest) =
      some ((m :: members).map memberValue, rest) := by
  have hbrace : EndsNumber '\x7d' ∧ isJsonSpace '\x7d' = false := by
    constructor
    · unfold EndsNumber
      decide
    · decide
  have hcomma : EndsNumber ',' ∧ isJsonSpace ',' = false ∧ (',' : Char) ≠ '\x7d' := by
    unfold EndsNumber
    decide
  induction members generalizing m fuel with
  | nil =>
    obtain ⟨fuel, rfl⟩ := Nat.exists_eq_succ_of_ne_zero (Nat.ne_of_gt (Nat.zero_lt_of_lt hfuel))
    rw [List.map_singleton, List.intercalate_singleton, readUntil, skipSpace_dumpsMember,
      readMember_dumpsMember depth (hfits m List.mem_cons_self) hbrace.1, Option.bind_some]
    dsimp only
    rw [skipSpace_cons hbrace.2]
    dsimp only
    rw [if_pos rfl, List.map_singleton]
  | cons k members ih =>
    obtain ⟨fuel, rfl⟩ := Nat.exists_eq_succ_of_ne_zero (Nat.ne_of_gt (Nat.zero_lt_of_lt hfuel))
    rw [List.length_cons] at hfuel
    have hsplit : [','].intercalate ((m :: k :: members).map dumpsMember) ++ '\x7d' :: rest =
        dumpsMember m ++
          ',' :: ([','].intercalate ((k :: members).map dumpsMember) ++ '\x7d' :: rest) := by
      simp [List.intercalate_cons_cons]
    rw [hsplit, readUntil, skipSpace_dumpsMember,
      readMember_dumpsMember depth (hfits m List.mem_cons_self) hcomma.1, Option.bind_some]
    dsimp only
    rw [skipSpace_cons hcomma.2.1]
    dsimp only
    rw [if_neg hcomma.2.2, if_pos rfl,
      ih k (fun x hx => hfits x (List.mem_cons_of_mem _ hx)) (show members.length < fuel by omega),
      Option.map_some, List.map_cons (a := m)]

theorem dictOf_of_nodup {members : List (List ℕ × Value)} (h : (members.map Prod.fst).Nodup) :
    dictOf members = members := by
  have hfold : ∀ (after before : List (List ℕ × Value)),
      ((before ++ after).map Prod.fst).Nodup → after.foldl setKey before = before ++ after := by
    intro after
    induction after with
    | nil => exact fun before _ => (List.append_nil before).symm
    | cons m after ih =>
      intro before hnodup
      have hnew : before.any (fun e => e.1 = m.1) = false := by
        rw [List.any_eq_false]
        intro e he heq
        rw [List.map_append, List.nodup_append] at hnodup
        exact hnodup.2.2 _ (List.mem_map_of_mem he) _ List.mem_cons_self (of_decide_eq_true heq)
      rw [List.foldl_cons, setKey, if_neg (by rw [hnew]; decide), ih _ (by simpa using hnodup),
        List.append_assoc, List.singleton_append]
  exact hfold members [] h

/-- Reading an object that was written gives its members back. -/
theorem loads_dumpsInOrder {members : List (String × Scalar)} (hfits : ∀ m ∈ members, m.2.Fits)
    (hnodup : (members.map Prod.fst).Nodup) :
    loads (dumpsInOrder members) = some (.object (members.map memberValue)) := by
  have hbrace : isJsonSpace '\x7b' = false ∧ isJsonSpace '"' = false := by decide
  have hkeys : ((members.map memberValue).map Prod.fst).Nodup := by
    have hcodes : Function.Injective fun s : String => s.toList.map Char.toNat := fun s t heq =>
      String.toList_injective (List.map_injective_iff.2 (fun c d h => Char.toNat_inj.1 h) heq)
    rw [List.map_map, show Prod.fst ∘ memberValue =
      (fun s : String => s.toList.map Char.toNat) ∘ Prod.fst from rfl, ← List.map_map]
    exact hnodup.map hcodes
  have hstart : (dumpsInOrder members).head? ≠ some '\ufeff' := by
    rw [dumpsInOrder, List.cons_append, List.head?_cons]
    decide
  rw [loads, if_neg hstart, dumpsInOrder, List.cons_append, skipSpace_cons hbrace.1]
  cases members with
  | nil => rfl
  | cons m members =>
    generalize hbody : [','].intercalate ((m :: members).map dumpsMember) ++ ['\x7d'] = body
    have hlength : members.length < body.length := by
      have hle := length_le_intercalate dumpsMember
        (fun k => by simp [dumpsMember, dumpsText]) (m :: members)
      rw [← hbody, List.length_append]
      rw [List.length_cons] at hle
      omega
    have hread := readUntil_dumpsMembers body.length m members hfits
      (hlength.trans (Nat.lt_succ_self _)) []
    obtain ⟨rest, hquote⟩ : ∃ rest, body = '"' :: rest := by
      rw [← hbody]
      cases members <;> simp [dumpsMember, dumpsText]
    rw [hbody, hquote] at hread
    have hvalue : readValue (body.length + 1 + 1) ('\x7b' :: body) =
        some (.object ((m :: members).map memberValue), []) := by
      rw [readValue, hquote]
      simp only [skipSpace_cons hbrace.2]
      show (readUntil _ _ _ ('"' :: rest)).map _ = _
      rw [hread, Option.map_some, dictOf_of_nodup hkeys]
    rw [List.length_cons, hvalue, Option.bind_some]
    rfl

/-! ## The characters that are written -/

theorem ascii_hexDigit (d : ℕ) : (hexDigit d).toNat < 128 := by
  have hall : ∀ c ∈ hexDigits, c.toNat < 128 := forall_of_all (by decide)
  rw [hexDigit, List.getD_eq_getElem?_getD]
  cases hd : hexDigits[d]? with
  | none => decide
  | some c => exact hall c (List.mem_of_getElem? hd)

theorem ascii_escapeUnit (u : ℕ) : ∀ c ∈ escapeUnit u, c.toNat < 128 := by
  have hslash : '\\'.toNat < 128 ∧ 'u'.toNat < 128 := by decide
  simp only [escapeUnit, List.forall_mem_cons]
  exact ⟨hslash.1, hslash.2, ascii_hexDigit _, ascii_hexDigit _, ascii_hexDigit _,
    ascii_hexDigit _, fun c hc => absurd hc List.not_mem_nil⟩

theorem ascii_escapeChar (c : Char) : ∀ d ∈ escapeChar c, d.toNat < 128 := by
  unfold escapeChar
  split
  · rename_i l hl
    have hall : ∀ e ∈ shortEscapes, e.2.toNat < 128 := by decide
    have hletter := hall _ (mem_of_lookup hl)
    simp only [List.forall_mem_cons]
    exact ⟨by decide, hletter, fun d hd => absurd hd List.not_mem_nil⟩
  · dsimp only
    split_ifs with hplain hbmp
    · simp only [List.mem_singleton, forall_eq]
      omega
    · exact ascii_escapeUnit _
    · exact List.forall_mem_append.2 ⟨ascii_escapeUnit _, ascii_escapeUnit _⟩

theorem ascii_dumpsText (s : String) : ∀ c ∈ dumpsText s, c.toNat < 128 := by
  have hquote : '"'.toNat < 128 := by decide
  have hbody : ∀ c ∈ s.toList.flatMap escapeChar, c.toNat < 128 := by
    intro c hc
    obtain ⟨d, -, hd⟩ := List.mem_flatMap.1 hc
    exact ascii_escapeChar d c hd
  rw [dumpsText, List.forall_mem_append, List.forall_mem_cons]
  exact ⟨⟨hquote, hbody⟩, by simp⟩

theorem ascii_toString (n : ℤ) : ∀ c ∈ (toString n).toList, c.toNat < 128 := by
  intro c hc
  rw [toList_toString] at hc
  rcases List.mem_append.1 hc with hc | hc
  · have hminus : c = '-' := by
      split at hc <;> simp_all
    rw [hminus]
    decide
  · have hall : ∀ d : Fin 10, (Char.ofNat (48 + d)).toNat < 128 := by decide
    obtain ⟨d, rfl⟩ := exists_digit (isDigit_of_mem_toDigits c hc)
    exact hall d

theorem ascii_dumpsMember (m : String × Scalar) : ∀ c ∈ dumpsMember m, c.toNat < 128 := by
  have hvalue : ∀ c ∈ dumpsScalar m.2, c.toNat < 128 := by
    cases m.2 with
    | null =>
      rw [dumpsScalar]
      exact forall_of_all (by decide)
    | int n => exact ascii_toString n
    | text s => exact ascii_dumpsText s
  rw [dumpsMember, List.forall_mem_append, List.forall_mem_cons]
  exact ⟨ascii_dumpsText m.1, by decide, hvalue⟩

theorem forall_mem_intercalate {p : Char → Prop} (hcomma : p ',') {xs : List (List Char)}
    (h : ∀ x ∈ xs, ∀ c ∈ x, p c) : ∀ c ∈ [','].intercalate xs, p c := by
  induction xs with
  | nil => exact fun c hc => absurd hc List.not_mem_nil
  | cons x xs ih =>
    obtain ⟨hx, hxs⟩ := List.forall_mem_cons.1 h
    cases xs with
    | nil =>
      rw [List.intercalate_singleton]
      exact hx
    | cons y xs =>
      rw [List.intercalate_cons_cons, List.forall_mem_append, List.forall_mem_append]
      exact ⟨⟨hx, by simpa using hcomma⟩, ih hxs⟩

/-- An object is written in ASCII. -/
theorem ascii_dumpsInOrder (members : List (String × Scalar)) :
    ∀ c ∈ dumpsInOrder members, c.toNat < 128 := by
  have hbody : ∀ c ∈ [','].intercalate (members.map dumpsMember), c.toNat < 128 := by
    refine forall_mem_intercalate (by decide) fun x hx => ?_
    obtain ⟨m, -, rfl⟩ := List.mem_map.1 hx
    exact ascii_dumpsMember m
  rw [dumpsInOrder, List.forall_mem_append, List.forall_mem_cons]
  exact ⟨⟨by decide, hbody⟩, by simp⟩

theorem length_le_of_mem_intercalate {x : List Char} {xs : List (List Char)} (h : x ∈ xs) :
    x.length ≤ ([','].intercalate xs).length := by
  induction xs with
  | nil => exact absurd h List.not_mem_nil
  | cons y xs ih =>
    cases xs with
    | nil =>
      rw [List.mem_singleton.1 h, List.intercalate_singleton]
    | cons z xs =>
      rw [List.intercalate_cons_cons, List.length_append, List.length_append]
      rcases List.mem_cons.1 h with rfl | h
      · omega
      · have hle := ih h
        omega

/-- A number takes its digits in the object. -/
theorem fits_of_length {members : List (String × Scalar)}
    (h : (dumpsInOrder members).length ≤ maxIntDigits) : ∀ m ∈ members, m.2.Fits := by
  intro m hm
  have hmember := length_le_of_mem_intercalate (List.mem_map_of_mem (f := dumpsMember) hm)
  cases hvalue : m.2 with
  | int n =>
    have hdigits : (Nat.toDigits 10 n.natAbs).length ≤ (dumpsMember m).length := by
      rw [dumpsMember, hvalue, dumpsScalar, toList_toString]
      simp only [List.length_append, List.length_cons]
      omega
    rw [dumpsInOrder, List.length_append, List.length_cons] at h
    show (Nat.toDigits 10 n.natAbs).length ≤ maxIntDigits
    omega
  | null => exact trivial
  | text s => exact trivial

/-! ## Enough fuel -/

/-- A reader that takes at least one character. -/
def Consumes {α : Type} (read : List Char → Option (α × List Char)) : Prop :=
  ∀ cs r, read cs = some r → r.2.length < cs.length

theorem length_skipSpace_le (cs : List Char) : (skipSpace cs).length ≤ cs.length :=
  (List.dropWhile_suffix _).length_le

theorem length_scanText {cs : List Char} {r : List ℕ × List Char} (h : scanText cs = some r) :
    r.2.length < cs.length := by
  fun_induction scanText cs generalizing r with
  | case1 rest =>
    obtain rfl := Option.some.inj h
    exact Nat.lt_succ_self _
  | case2 a b c d rest ih =>
    obtain ⟨u, -, hu⟩ := Option.bind_eq_some_iff.1 h
    obtain ⟨r', hr', rfl⟩ := Option.map_eq_some_iff.1 hu
    have hlt := ih hr'
    simp only [List.length_cons]
    omega
  | case3 l rest _ ih =>
    obtain ⟨u, -, hu⟩ := Option.bind_eq_some_iff.1 h
    obtain ⟨r', hr', rfl⟩ := Option.map_eq_some_iff.1 hu
    have hlt := ih hr'
    simp only [List.length_cons]
    omega
  | case4 => cases h
  | case5 c rest _ _ _ _ ih =>
    obtain ⟨r', hr', rfl⟩ := Option.map_eq_some_iff.1 h
    exact (ih hr').trans (Nat.lt_succ_self _)
  | case6 => cases h

theorem consumes_readPoints : Consumes readPoints := by
  intro cs r h
  unfold readPoints at h
  split at h
  · obtain ⟨r', hr', rfl⟩ := Option.map_eq_some_iff.1 h
    exact (length_scanText hr').trans (Nat.lt_succ_self _)
  · cases h

theorem length_scanWhole_le (cs : List Char) : (scanWhole cs).length ≤ cs.length := by
  unfold scanWhole
  split
  · rw [List.length_singleton, List.length_cons]
    omega
  · exact (List.takeWhile_prefix _).length_le

theorem consumes_readUnsigned (neg : Bool) : Consumes (readUnsigned neg) := by
  intro cs r h
  unfold readUnsigned at h
  dsimp only at h
  have hwhole : scanWhole cs ≠ [] := by
    intro hnil
    rw [if_pos hnil] at h
    cases h
  have hrest : ∃ k, r.2 = (cs.drop (scanWhole cs).length).drop k := by
    rw [if_neg hwhole] at h
    split at h
    · split at h
      · cases h
      · exact ⟨_, (congrArg Prod.snd (Option.some.inj h)).symm⟩
    · obtain ⟨x, -, rfl⟩ := Option.map_eq_some_iff.1 h
      exact ⟨_, rfl⟩
  obtain ⟨k, hk⟩ := hrest
  have hpos := List.length_pos_iff.2 hwhole
  have hle := length_scanWhole_le cs
  rw [hk, List.length_drop, List.length_drop]
  omega

theorem consumes_readPlain : Consumes readPlain := by
  intro cs r h
  unfold readPlain at h
  split at h
  · rename_i w hw
    obtain rfl := Option.some.inj h
    have hpos : ∀ w ∈ words, 0 < w.1.length := by decide
    have hpre := List.find?_some hw
    have hle := (List.isPrefixOf_iff_prefix.1 hpre).length_le
    have hword := hpos w (List.mem_of_find?_eq_some hw)
    rw [List.length_drop]
    omega
  · split at h
    · have hlt := consumes_readUnsigned true _ _ h
      rw [List.length_cons]
      omega
    · exact consumes_readUnsigned false _ _ h

theorem consumes_readUntil {α : Type} (close : Char) {one : List Char → Option (α × List Char)}
    (hone : Consumes one) (fuel : ℕ) : Consumes (readUntil close one fuel) := by
  induction fuel with
  | zero =>
    intro cs r h
    cases h
  | succ fuel ih =>
    intro cs r h
    obtain ⟨x, hx, h⟩ := Option.bind_eq_some_iff.1 h
    have hstart := length_skipSpace_le cs
    have hitem := hone _ _ hx
    have hafter := length_skipSpace_le x.2
    split at h
    · rename_i c rest hrest
      rw [hrest, List.length_cons] at hafter
      split_ifs at h with hclose hcomma
      · obtain rfl := Option.some.inj h
        show rest.length < _
        omega
      · obtain ⟨r', hr', rfl⟩ := Option.map_eq_some_iff.1 h
        have hlt := ih _ _ hr'
        show r'.2.length < _
        omega
    · cases h

theorem consumes_readMember {read : List Char → Option (Value × List Char)}
    (hread : Consumes read) : Consumes (readMember read) := by
  intro cs r h
  obtain ⟨k, hk, h⟩ := Option.bind_eq_some_iff.1 h
  have hkey := consumes_readPoints _ _ hk
  have hafter := length_skipSpace_le k.2
  split at h
  · rename_i rest hrest
    rw [hrest, List.length_cons] at hafter
    obtain ⟨v, hv, rfl⟩ := Option.map_eq_some_iff.1 h
    have hspace := length_skipSpace_le rest
    have hvalue := hread _ _ hv
    show v.2.length < _
    omega
  · cases h

theorem consumes_readValue (fuel : ℕ) : Consumes (readValue fuel) := by
  induction fuel with
  | zero =>
    intro cs r h
    cases h
  | succ fuel ih =>
    intro cs r h
    rw [readValue.eq_def] at h
    dsimp only at h
    split at h
    · obtain ⟨r', hr', rfl⟩ := Option.map_eq_some_iff.1 h
      exact consumes_readPoints _ _ hr'
    · rename_i rest
      have hspace := length_skipSpace_le rest
      rw [List.length_cons]
      split at h
      · rename_i rest' hrest
        obtain rfl := Option.some.inj h
        rw [hrest, List.length_cons] at hspace
        show rest'.length < _
        omega
      · obtain ⟨r', hr', rfl⟩ := Option.map_eq_some_iff.1 h
        have hlt := consumes_readUntil ']' ih fuel _ _ hr'
        show r'.2.length < _
        omega
    · rename_i rest
      have hspace := length_skipSpace_le rest
      rw [List.length_cons]
      split at h
      · rename_i rest' hrest
        obtain rfl := Option.some.inj h
        rw [hrest, List.length_cons] at hspace
        show rest'.length < _
        omega
      · obtain ⟨r', hr', rfl⟩ := Option.map_eq_some_iff.1 h
        have hlt := consumes_readUntil '\x7d' (consumes_readMember ih) fuel _ _ hr'
        show r'.2.length < _
        omega
    · exact consumes_readPlain _ _ h

/-- Two readers that agree on what is left read the same items, with fuel for each character. -/
theorem readUntil_congr {α : Type} (close : Char) {one one' : List Char → Option (α × List Char)}
    {n : ℕ} (hone : Consumes one) (hsame : ∀ cs, cs.length < n → one cs = one' cs)
    {fuel fuel' : ℕ} {cs : List Char} (hfuel : cs.length < fuel) (hfuel' : cs.length < fuel')
    (hn : cs.length < n) : readUntil close one fuel cs = readUntil close one' fuel' cs := by
  induction fuel generalizing fuel' cs with
  | zero => exact absurd hfuel (Nat.not_lt_zero _)
  | succ fuel ih =>
    obtain ⟨fuel', rfl⟩ := Nat.exists_eq_succ_of_ne_zero (Nat.ne_of_gt (Nat.zero_lt_of_lt hfuel'))
    have hstart := length_skipSpace_le cs
    rw [readUntil, readUntil, ← hsame _ (by omega)]
    cases hx : one (skipSpace cs) with
    | none => rfl
    | some x =>
      have hitem := hone _ _ hx
      have hafter := length_skipSpace_le x.2
      rw [Option.bind_some, Option.bind_some]
      cases hrest : skipSpace x.2 with
      | nil => rfl
      | cons c rest =>
        rw [hrest, List.length_cons] at hafter
        dsimp only
        rw [ih (show rest.length < fuel by omega) (show rest.length < fuel' by omega) (by omega)]

theorem readMember_congr {read read' : List Char → Option (Value × List Char)} {n : ℕ}
    (hsame : ∀ cs, cs.length < n → read cs = read' cs) {cs : List Char} (hn : cs.length < n) :
    readMember read cs = readMember read' cs := by
  unfold readMember
  cases hk : readPoints cs with
  | none => rfl
  | some k =>
    have hkey := consumes_readPoints _ _ hk
    have hafter := length_skipSpace_le k.2
    rw [Option.bind_some, Option.bind_some]
    split
    · rename_i rest hrest
      have hspace := length_skipSpace_le rest
      rw [hrest, List.length_cons] at hafter
      rw [hsame _ (by omega)]
    · rfl

/-- Fuel for each character is enough: with more, the same is read. -/
theorem readValue_of_lt {fuel fuel' : ℕ} {cs : List Char} (hfuel : cs.length < fuel)
    (hfuel' : cs.length < fuel') : readValue fuel cs = readValue fuel' cs := by
  induction fuel generalizing fuel' cs with
  | zero => exact absurd hfuel (Nat.not_lt_zero _)
  | succ fuel ih =>
    obtain ⟨fuel', rfl⟩ := Nat.exists_eq_succ_of_ne_zero (Nat.ne_of_gt (Nat.zero_lt_of_lt hfuel'))
    have hsame : ∀ ds : List Char, ds.length < min fuel fuel' →
        readValue fuel ds = readValue fuel' ds := fun ds hds =>
      ih (lt_of_lt_of_le hds (min_le_left _ _)) (lt_of_lt_of_le hds (min_le_right _ _))
    rw [readValue.eq_def, readValue.eq_def]
    dsimp only
    split
    · rfl
    · rename_i rest
      have hspace := length_skipSpace_le rest
      rw [List.length_cons] at hfuel hfuel'
      split
      · rfl
      · have hlt : (skipSpace rest).length < fuel ∧ (skipSpace rest).length < fuel' := by omega
        rw [readUntil_congr ']' (consumes_readValue fuel) hsame hlt.1 hlt.2
          (lt_min hlt.1 hlt.2)]
    · rename_i rest
      have hspace := length_skipSpace_le rest
      rw [List.length_cons] at hfuel hfuel'
      split
      · rfl
      · have hlt : (skipSpace rest).length < fuel ∧ (skipSpace rest).length < fuel' := by omega
        rw [readUntil_congr '\x7d' (consumes_readMember (consumes_readValue fuel))
          (fun ds hds => readMember_congr hsame hds) hlt.1 hlt.2 (lt_min hlt.1 hlt.2)]
    · rfl

end Py.Json
