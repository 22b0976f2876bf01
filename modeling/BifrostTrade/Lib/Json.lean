import BifrostTrade.Lib.Text

/-!
# JSON lists of texts

`json.dumps` and `json.loads` for lists of texts: every character outside printable ASCII is
escaped, one beyond the basic plane as a surrogate pair.  Reading what was written gives the list
back (`loadsTexts_dumpsTexts`).
-/

namespace Py.Json

/-! ## Writing -/

/-- The digits of `\u` escapes. -/
def hexDigits : List Char := "0123456789abcdef".toList

/-- One of them. -/
def hexDigit (d : ℕ) : Char := hexDigits.getD d '0'

/-- `\uXXXX` of a code unit. -/
def escapeUnit (u : ℕ) : List Char :=
  ['\\', 'u', hexDigit (u / 4096 % 16), hexDigit (u / 256 % 16), hexDigit (u / 16 % 16),
    hexDigit (u % 16)]

/-- The letters of the short escapes. -/
def shortEscapes : List (Char × Char) :=
  [('"', '"'), ('\\', '\\'), ('\n', 'n'), ('\r', 'r'), ('\t', 't'), (Char.ofNat 12, 'f'),
    (Char.ofNat 8, 'b')]

/-- A character in a text, with `ensure_ascii`. -/
def escapeChar (c : Char) : List Char :=
  match shortEscapes.lookup c with
  | some l => ['\\', l]
  | none =>
      let n := c.toNat
      if 32 ≤ n ∧ n ≤ 126 then [c]
      else if n < 65536 then escapeUnit n
      else escapeUnit (55296 + (n - 65536) / 1024) ++ escapeUnit (56320 + (n - 65536) % 1024)

/-- A text between quotes. -/
def dumpsText (s : String) : List Char := '"' :: s.toList.flatMap escapeChar ++ ['"']

/-- `json.dumps(texts, separators=(",", ":"))`. -/
def dumpsTexts (texts : List String) : String :=
  String.ofList ('[' :: ([','].intercalate (texts.map dumpsText)) ++ [']'])

/-! ## Reading -/

/-- The value of a hexadecimal digit of either case. -/
def hexValue (c : Char) : Option ℕ :=
  let n := c.toNat
  if 48 ≤ n ∧ n ≤ 57 then some (n - 48)
  else if 97 ≤ n ∧ n ≤ 102 then some (n - 87)
  else if 65 ≤ n ∧ n ≤ 70 then some (n - 55)
  else none

/-- The code unit of four hexadecimal digits. -/
def unitOf (a b c d : Char) : Option ℕ := do
  let a ← hexValue a
  let b ← hexValue b
  let c ← hexValue c
  let d ← hexValue d
  return a * 4096 + b * 256 + c * 16 + d

/-- The character of a short escape. -/
def unescape (l : Char) : Option ℕ :=
  if l = '/' then some 47
  else (shortEscapes.find? fun e => e.2 = l).map fun e => e.1.toNat

/-- The code points and units of a text up to its closing quote, and the rest. -/
def scanText : List Char → Option (List ℕ × List Char)
  | '"' :: rest => some ([], rest)
  | '\\' :: 'u' :: a :: b :: c :: d :: rest =>
      (unitOf a b c d).bind fun u => (scanText rest).map fun r => (u :: r.1, r.2)
  | '\\' :: l :: rest =>
      (unescape l).bind fun n => (scanText rest).map fun r => (n :: r.1, r.2)
  | c :: rest =>
      if c = '\\' ∨ c.toNat < 32 then none
      else (scanText rest).map fun r => (c.toNat :: r.1, r.2)
  | [] => none

/-- The characters of code points and units; a surrogate without its other half is no text. -/
def charsOf : List ℕ → Option (List Char)
  | high :: low :: rest =>
      if 55296 ≤ high ∧ high < 56320 then
        if 56320 ≤ low ∧ low < 57344 then
          (charsOf rest).map fun cs =>
            Char.ofNat (65536 + (high - 55296) * 1024 + (low - 56320)) :: cs
        else none
      else if 56320 ≤ high ∧ high < 57344 then none
      else (charsOf (low :: rest)).map fun cs => Char.ofNat high :: cs
  | [n] => if 55296 ≤ n ∧ n < 57344 then none else some [Char.ofNat n]
  | [] => some []

/-- White space between tokens. -/
def isJsonSpace (c : Char) : Bool := c ∈ [' ', '\t', '\n', '\r']

/-- The text without leading white space. -/
def skipSpace (cs : List Char) : List Char := cs.dropWhile isJsonSpace

/-- A text from its opening quote, and the rest. -/
def readText : List Char → Option (String × List Char)
  | '"' :: cs => (scanText cs).bind fun r => (charsOf r.1).map fun s => (String.ofList s, r.2)
  | _ => none

/-- The texts after the opening bracket, one for each unit of fuel. -/
def readItems : ℕ → List Char → Option (List String × List Char)
  | 0, _ => none
  | fuel + 1, cs =>
      (readText (skipSpace cs)).bind fun r =>
        match skipSpace r.2 with
        | ',' :: rest => (readItems fuel rest).map fun r' => (r.1 :: r'.1, r'.2)
        | ']' :: rest => some ([r.1], rest)
        | _ => none

/-- The texts of a list, and what follows it. -/
def readTexts (cs : List Char) : Option (List String × List Char) :=
  match skipSpace cs with
  | '[' :: rest =>
      match skipSpace rest with
      | ']' :: rest => some ([], rest)
      | rest => readItems rest.length rest
  | _ => none

/-- `json.loads(s)` where that is a list of texts. -/
def loadsTexts (s : String) : Option (List String) :=
  (readTexts s.toList).bind fun r => if skipSpace r.2 = [] then some r.1 else none

/-! ## The units of a text -/

/-- The code point of a character of the basic plane, or its surrogates. -/
def unitsOf (c : Char) : List ℕ :=
  let n := c.toNat
  if n < 65536 then [n] else [55296 + (n - 65536) / 1024, 56320 + (n - 65536) % 1024]

theorem hexValue_hexDigit {d : ℕ} (hd : d < 16) : hexValue (hexDigit d) = some d := by
  have hall : ∀ d : Fin 16, hexValue (hexDigit d) = some d.val := by decide
  exact hall ⟨d, hd⟩

theorem scanText_escapeUnit {u : ℕ} (hu : u < 65536) (rest : List Char) :
    scanText (escapeUnit u ++ rest) = (scanText rest).map fun r => (u :: r.1, r.2) := by
  have hunit : unitOf (hexDigit (u / 4096 % 16)) (hexDigit (u / 256 % 16))
      (hexDigit (u / 16 % 16)) (hexDigit (u % 16)) = some u := by
    have hmod : ∀ n : ℕ, hexValue (hexDigit (n % 16)) = some (n % 16) := fun n =>
      hexValue_hexDigit (Nat.mod_lt n (by decide))
    simp only [unitOf, hmod, Option.bind_eq_bind, Option.bind_some, Option.pure_def,
      Option.some.injEq]
    omega
  show scanText ('\\' :: 'u' :: _ :: _ :: _ :: _ :: rest) = _
  rw [scanText, hunit, Option.bind_some]

/-- A character of the basic plane that is printed as it is. -/
theorem scanText_plain {c : Char} (hquote : c ≠ '"') (hslash : c ≠ '\\') (hc : 32 ≤ c.toNat)
    (rest : List Char) :
    scanText (c :: rest) = (scanText rest).map fun r => (c.toNat :: r.1, r.2) := by
  rw [scanText, if_neg]
  · rintro (h | h)
    · exact hslash h
    · omega
  · exact hquote
  · exact fun _ _ _ _ _ h _ => hslash h
  · exact fun _ _ h _ => hslash h

theorem mem_of_lookup {c l : Char} (h : shortEscapes.lookup c = some l) :
    (c, l) ∈ shortEscapes := by
  obtain ⟨before, after, heq, -⟩ := List.lookup_eq_some_iff.1 h
  rw [heq]
  exact List.mem_append_right _ (List.mem_cons_self ..)

/-- A short escape is read as the character it stands for. -/
theorem scanText_shortEscape {c l : Char} (h : shortEscapes.lookup c = some l)
    (rest : List Char) :
    scanText ('\\' :: l :: rest) = (scanText rest).map fun r => (c.toNat :: r.1, r.2) := by
  have hall : ∀ e ∈ shortEscapes, e.2 ≠ 'u' ∧ unescape e.2 = some e.1.toNat := by decide
  obtain ⟨hu, hunescape⟩ := hall _ (mem_of_lookup h)
  rw [scanText, hunescape, Option.bind_some]
  exact fun _ _ _ _ _ hl _ => hu hl

theorem toNat_lt (c : Char) : c.toNat < 1114112 := by
  have hvalid := c.valid
  unfold UInt32.isValidChar Nat.isValidChar at hvalid
  show c.val.toNat < 1114112
  omega

theorem not_surrogate (c : Char) : c.toNat < 55296 ∨ 57344 ≤ c.toNat := by
  have hvalid := c.valid
  unfold UInt32.isValidChar Nat.isValidChar at hvalid
  show c.val.toNat < 55296 ∨ 57344 ≤ c.val.toNat
  omega

/-- A character that is written is scanned as its units. -/
theorem scanText_escapeChar (c : Char) (rest : List Char) :
    scanText (escapeChar c ++ rest) = (scanText rest).map fun r => (unitsOf c ++ r.1, r.2) := by
  have hrange := toNat_lt c
  unfold escapeChar unitsOf
  cases hlookup : shortEscapes.lookup c with
  | some l =>
    have hsmall : ∀ e ∈ shortEscapes, e.1.toNat < 65536 := by decide
    rw [if_pos (hsmall _ (mem_of_lookup hlookup))]
    exact scanText_shortEscape hlookup rest
  | none =>
    dsimp only
    have hne : ∀ e ∈ shortEscapes, c ≠ e.1 := by
      intro e he heq
      have hnone := List.lookup_eq_none_iff.1 hlookup e he
      simp [heq] at hnone
    split_ifs with hplain hbmp hbmp
    · exact scanText_plain (hne ('"', '"') (by decide)) (hne ('\\', '\\') (by decide))
        hplain.1 rest
    · omega
    · exact scanText_escapeUnit hbmp rest
    · rw [List.append_assoc, scanText_escapeUnit (by omega), scanText_escapeUnit (by omega),
        Option.map_map]
      rfl

/-- A text that is written is scanned up to its closing quote. -/
theorem scanText_flatMap (cs rest : List Char) :
    scanText (cs.flatMap escapeChar ++ '"' :: rest) = some (cs.flatMap unitsOf, rest) := by
  induction cs with
  | nil => rw [List.flatMap_nil, List.nil_append, scanText, List.flatMap_nil]
  | cons c cs ih =>
    rw [List.flatMap_cons, List.append_assoc, scanText_escapeChar, ih, List.flatMap_cons]
    rfl

/-- The units of a character are read as the character. -/
theorem charsOf_unitsOf (c : Char) (rest : List ℕ) :
    charsOf (unitsOf c ++ rest) = (charsOf rest).map fun cs => c :: cs := by
  have hrange := toNat_lt c
  have hvalid := not_surrogate c
  unfold unitsOf
  dsimp only
  split_ifs with hbmp
  · cases rest with
    | nil =>
      rw [List.append_nil, charsOf, if_neg (by omega), Char.ofNat_toNat]
      rfl
    | cons low rest =>
      rw [List.singleton_append, charsOf, if_neg (by omega), if_neg (by omega), Char.ofNat_toNat]
  · rw [List.cons_append, List.singleton_append, charsOf, if_pos (by omega), if_pos (by omega)]
    have hpair : 65536 + (55296 + (c.toNat - 65536) / 1024 - 55296) * 1024 +
        (56320 + (c.toNat - 65536) % 1024 - 56320) = c.toNat := by omega
    rw [hpair, Char.ofNat_toNat]

theorem charsOf_flatMap (cs : List Char) : charsOf (cs.flatMap unitsOf) = some cs := by
  induction cs with
  | nil => rfl
  | cons c cs ih =>
    rw [List.flatMap_cons, charsOf_unitsOf, ih]
    rfl

/-! ## Reading what was written -/

theorem readText_dumpsText (s : String) (rest : List Char) :
    readText (dumpsText s ++ rest) = some (s, rest) := by
  have hscan := scanText_flatMap s.toList rest
  have htext : dumpsText s ++ rest = '"' :: (s.toList.flatMap escapeChar ++ '"' :: rest) := by
    simp [dumpsText]
  rw [htext, readText, hscan, Option.bind_some, charsOf_flatMap, Option.map_some,
    String.ofList_toList]

/-- Nothing that is written starts with a space. -/
theorem skipSpace_cons {c : Char} (h : isJsonSpace c = false) (rest : List Char) :
    skipSpace (c :: rest) = c :: rest := List.dropWhile_cons_of_neg (by simp [h])

theorem skipSpace_dumpsText (s : String) (rest : List Char) :
    skipSpace (dumpsText s ++ rest) = dumpsText s ++ rest := by
  rw [dumpsText, List.cons_append]
  exact skipSpace_cons (by decide) _

/-- The items of a list that was written, with one unit of fuel for each. -/
theorem readItems_intercalate (s : String) (texts : List String) {fuel : ℕ}
    (hfuel : texts.length < fuel) (rest : List Char) :
    readItems fuel ([','].intercalate ((s :: texts).map dumpsText) ++ ']' :: rest) =
      some (s :: texts, rest) := by
  induction texts generalizing s fuel with
  | nil =>
    obtain ⟨fuel, rfl⟩ := Nat.exists_eq_succ_of_ne_zero (Nat.ne_of_gt (Nat.zero_lt_of_lt hfuel))
    rw [List.map_cons, List.map_nil, List.intercalate_singleton, readItems,
      skipSpace_dumpsText, readText_dumpsText, Option.bind_some,
      skipSpace_cons (by decide)]
    rfl
  | cons t texts ih =>
    obtain ⟨fuel, rfl⟩ := Nat.exists_eq_succ_of_ne_zero (Nat.ne_of_gt (Nat.zero_lt_of_lt hfuel))
    rw [List.length_cons] at hfuel
    have hsplit : [','].intercalate ((s :: t :: texts).map dumpsText) ++ ']' :: rest =
        dumpsText s ++ ',' :: ([','].intercalate ((t :: texts).map dumpsText) ++ ']' :: rest) := by
      simp [List.intercalate_cons_cons]
    rw [hsplit, readItems, skipSpace_dumpsText, readText_dumpsText, Option.bind_some,
      skipSpace_cons (by decide)]
    have hrest := ih t (show texts.length < fuel by omega)
    simp only [hrest, Option.map_some]

theorem length_le_intercalate {α : Type} (f : α → List Char) (hf : ∀ x, 1 ≤ (f x).length)
    (xs : List α) : xs.length ≤ ([','].intercalate (xs.map f)).length := by
  induction xs with
  | nil => exact Nat.zero_le _
  | cons x xs ih =>
    cases xs with
    | nil =>
      rw [List.map_singleton, List.intercalate_singleton]
      exact hf x
    | cons y xs =>
      have hx := hf x
      rw [List.map_cons, List.map_cons, List.intercalate_cons_cons, ← List.map_cons]
      simp only [List.length_append, List.length_cons] at ih ⊢
      omega

/-- Reading a list that was written gives it back. -/
theorem loadsTexts_dumpsTexts (texts : List String) :
    loadsTexts (dumpsTexts texts) = some texts := by
  have hread : readTexts (dumpsTexts texts).toList = some (texts, []) := by
    rw [dumpsTexts, String.toList_ofList, readTexts, List.cons_append, skipSpace_cons (by decide)]
    cases texts with
    | nil => rfl
    | cons s texts =>
      have hfuel : texts.length <
          ([','].intercalate ((s :: texts).map dumpsText) ++ [']']).length := by
        have hlength := length_le_intercalate dumpsText (fun t => by simp [dumpsText]) (s :: texts)
        rw [List.length_cons] at hlength
        rw [List.length_append]
        omega
      have hitems := readItems_intercalate s texts hfuel []
      obtain ⟨rest, hstart⟩ : ∃ rest,
          [','].intercalate ((s :: texts).map dumpsText) ++ [']'] = '"' :: rest := by
        cases texts <;> simp [dumpsText]
      have hquote : isJsonSpace '"' = false := by decide
      rw [hstart] at hitems ⊢
      simp only [skipSpace_cons hquote]
      exact hitems
  rw [loadsTexts, hread, Option.bind_some]
  rfl

example : dumpsTexts ["SPY", "a\"b"] = "[\"SPY\",\"a\\\"b\"]" := by decide

end Py.Json
