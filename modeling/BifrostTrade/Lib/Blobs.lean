import BifrostTrade.Lib.Conversions
import BifrostTrade.Lib.Octets

/-!
# Texts and bytes

A client gives a stored text back as a text or as its bytes in UTF-8.  `bytes.decode` with
`errors="replace"` reads what `str.encode` writes (`decodeReplace_encodeText`); `str`, `int` and
`float` of bytes are not those of the text: `str` writes the literal.
-/

namespace Py

/-! ## UTF-8 -/

namespace Octets

/-- `s.encode("utf-8")`; the characters of a text are no surrogates. -/
def encodeText (s : String) : List ℕ := s.toList.flatMap fun c => (utf8Bytes c.toNat).getD []

/-- Whether a byte may be the second of a character of three or four bytes. -/
def isSecond (a b : ℕ) : Bool :=
  isContinuation b ∧ (a = 224 → 160 ≤ b) ∧ (a = 237 → b < 160) ∧ (a = 240 → 144 ≤ b) ∧
    (a = 244 → b < 144)

/-- How many bytes in front are replaced as one where no character starts. -/
def malformed : List ℕ → ℕ
  | a :: b :: rest =>
      if 224 ≤ a ∧ a < 245 ∧ isSecond a b then
        if 240 ≤ a ∧ isContinuation (rest.headD 0) then 3 else 2
      else 1
  | _ => 1

/-- The code points of bytes, U+FFFD for what is no character; at most one for each unit of
fuel. -/
def replacePoints : ℕ → List ℕ → List ℕ
  | 0, _ => []
  | _, [] => []
  | fuel + 1, bytes =>
      match utf8Point bytes with
      | some (n, rest) => n :: replacePoints fuel rest
      | none => 65533 :: replacePoints fuel (bytes.drop (malformed bytes))

/-- `bytes.decode("utf-8", errors="replace")`. -/
def decodeReplace (bytes : List ℕ) : String :=
  String.ofList ((replacePoints bytes.length bytes).map Char.ofNat)

example : decodeReplace [97, 226, 130, 98, 255] = "a\uFFFDb\uFFFD" := by decide +kernel

/-- The bytes of a character are read as it. -/
theorem utf8Point_utf8Bytes {n : ℕ} (hn : n.isValidChar) (rest : List ℕ) :
    utf8Point ((utf8Bytes n).getD [] ++ rest) = some (n, rest) := by
  have hcont : ∀ k, isContinuation (128 + k % 64) = true := fun k => by
    rw [isContinuation, decide_eq_true_eq]
    omega
  rw [Nat.isValidChar] at hn
  unfold utf8Bytes
  by_cases h1 : n < 128
  · rw [if_pos h1]
    exact utf8Point_ascii h1 rest
  rw [if_neg h1]
  by_cases h2 : n < 2048
  · rw [if_pos h2, Option.getD_some, List.cons_append, List.cons_append, List.nil_append, utf8Point,
      if_neg (by omega), if_pos (by omega)]
    rw [if_pos (hcont n), Option.some.injEq, Prod.mk.injEq]
    exact ⟨by omega, rfl⟩
  rw [if_neg h2, if_neg (by omega)]
  by_cases h3 : n < 65536
  · rw [if_pos h3, Option.getD_some, List.cons_append, List.cons_append, List.cons_append,
      List.nil_append, utf8Point, if_neg (by omega), if_neg (by omega), if_pos (by omega)]
    dsimp only
    have hvalue : (224 + n / 4096 - 224) * 4096 + (128 + n / 64 % 64 - 128) * 64 +
        (128 + n % 64 - 128) = n := by omega
    rw [hvalue, if_pos ⟨hcont _, hcont _, by omega, by omega⟩]
  · rw [if_neg h3, Option.getD_some, List.cons_append, List.cons_append, List.cons_append,
      List.cons_append, List.nil_append, utf8Point, if_neg (by omega), if_neg (by omega),
      if_neg (by omega), if_pos (by omega)]
    dsimp only
    have hvalue : (240 + n / 262144 - 240) * 262144 + (128 + n / 4096 % 64 - 128) * 4096 +
        (128 + n / 64 % 64 - 128) * 64 + (128 + n % 64 - 128) = n := by omega
    rw [hvalue, if_pos ⟨hcont _, hcont _, hcont _, by omega, by omega⟩]

theorem isValidChar_toNat (c : Char) : c.toNat.isValidChar := c.valid

theorem length_utf8Bytes_pos {n : ℕ} (hn : n.isValidChar) :
    0 < ((utf8Bytes n).getD []).length := by
  rw [Nat.isValidChar] at hn
  unfold utf8Bytes
  split_ifs with h1 h2 h3 h4
  · simp
  · simp
  · omega
  · simp
  · simp

theorem replacePoints_encode {cs : List Char} {fuel : ℕ}
    (hfuel : (cs.flatMap fun c => (utf8Bytes c.toNat).getD []).length ≤ fuel) :
    replacePoints fuel (cs.flatMap fun c => (utf8Bytes c.toNat).getD []) =
      cs.map Char.toNat := by
  induction cs generalizing fuel with
  | nil => cases fuel <;> rfl
  | cons c cs ih =>
    have hpos := length_utf8Bytes_pos (isValidChar_toNat c)
    rw [List.flatMap_cons] at hfuel ⊢
    rw [List.length_append] at hfuel
    cases fuel with
    | zero => exact absurd (hpos.trans_le (Nat.le_of_add_right_le hfuel)) (lt_irrefl 0)
    | succ fuel =>
      rw [replacePoints, utf8Point_utf8Bytes (isValidChar_toNat c)]
      · dsimp only
        rw [ih (by omega), List.map_cons]
      · intro hnil
        rw [(List.append_eq_nil_iff.1 hnil).1] at hpos
        exact lt_irrefl 0 hpos

/-- Decoding reads back what was encoded. -/
theorem decodeReplace_encodeText (s : String) : decodeReplace (encodeText s) = s := by
  rw [decodeReplace, encodeText, replacePoints_encode le_rfl, List.map_map]
  have hchars : s.toList.map (Char.ofNat ∘ Char.toNat) = s.toList :=
    (List.map_congr_left fun c _ => Char.ofNat_toNat c).trans (List.map_id _)
  rw [hchars, String.ofList_toList]

theorem encodeText_inj {s t : String} : encodeText s = encodeText t ↔ s = t := by
  constructor
  · intro h
    rw [← decodeReplace_encodeText s, h, decodeReplace_encodeText]
  · rintro rfl
    rfl

theorem encodeText_eq_nil_iff {s : String} : encodeText s = [] ↔ s = "" :=
  encodeText_inj (t := "")

/-- A text of ASCII characters is its bytes. -/
theorem encodeText_ascii {s : String} (h : ∀ c ∈ s.toList, c.toNat < 128) :
    encodeText s = s.toList.map Char.toNat := by
  rw [encodeText, List.map_eq_flatMap]
  refine List.flatMap_congr fun c hc => ?_
  rw [utf8Bytes, if_pos (h c hc)]
  rfl

end Octets

/-! ## Values -/

/-- A text, or bytes. -/
inductive Blob where
  | text (s : String)
  | bytes (bs : List ℕ)
  deriving DecidableEq

/-- A hexadecimal digit. -/
def hexDigit (n : ℕ) : Char := Char.ofNat (if n < 10 then 48 + n else 87 + n)

/-- A byte within the literal. -/
def byteText (quote b : ℕ) : List Char :=
  if b = 9 then "\\t".toList
  else if b = 10 then "\\n".toList
  else if b = 13 then "\\r".toList
  else if b = 92 ∨ b = quote then [Char.ofNat 92, Char.ofNat b]
  else if 32 ≤ b ∧ b < 127 then [Char.ofNat b]
  else "\\x".toList ++ [hexDigit (b / 16), hexDigit (b % 16)]

/-- The quotes of the literal: single ones, unless only those are in it. -/
def bytesQuote (bs : List ℕ) : ℕ := if 39 ∈ bs ∧ 34 ∉ bs then 34 else 39

/-- `repr(bytes)`. -/
def bytesRepr (bs : List ℕ) : String :=
  String.ofList ('b' :: (Char.ofNat (bytesQuote bs) :: bs.flatMap (byteText (bytesQuote bs)) ++
    [Char.ofNat (bytesQuote bs)]))

/-- Bytes that `int` and `float` read as the text of their characters: ASCII, and none of the
separators that only texts count as spaces. -/
def plainBytes (bs : List ℕ) : Bool := bs.all fun b => b < 128 ∧ ¬ (28 ≤ b ∧ b ≤ 31)

namespace Blob

/-- Whether the value counts as true. -/
def truthy : Blob → Bool
  | text s => s ≠ ""
  | bytes bs => bs ≠ []

/-- `str(value)`. -/
def str : Blob → String
  | text s => s
  | bytes bs => bytesRepr bs

/-- `value.decode("utf-8", errors="replace")` of bytes; the text itself. -/
def decode : Blob → String
  | text s => s
  | bytes bs => Octets.decodeReplace bs

/-- `int(value)`; `none` where it raises. -/
def toInt : Blob → Option ℤ
  | text s => (intOfText s).toOption
  | bytes bs => if plainBytes bs then (intOfText (Octets.decodeReplace bs)).toOption else none

/-- `float(value)`; `none` where it raises. -/
def toFloat : Blob → Option Double
  | text s => readFloat s
  | bytes bs => if plainBytes bs then readFloat (Octets.decodeReplace bs) else none

end Blob

example : bytesRepr [104, 39, 195, 10] = "b\"h'\\xc3\\n\"" := by decide +kernel

/-! ## Laws of the values -/

theorem plainBytes_encodeText {s : String}
    (h : ∀ c ∈ s.toList, c.toNat < 128 ∧ 31 < c.toNat) :
    plainBytes (Octets.encodeText s) = true := by
  rw [Octets.encodeText_ascii fun c hc => (h c hc).1, plainBytes, List.all_eq_true]
  intro b hb
  obtain ⟨c, hc, rfl⟩ := List.mem_map.1 hb
  have hrange := h c hc
  rw [decide_eq_true_eq]
  omega

/-- A text is no longer than its bytes. -/
theorem length_le_encodeText (s : String) : s.toList.length ≤ (Octets.encodeText s).length := by
  rw [Octets.encodeText]
  induction s.toList with
  | nil => exact Nat.zero_le _
  | cons c cs ih =>
    have hpos := Octets.length_utf8Bytes_pos (Octets.isValidChar_toNat c)
    rw [List.flatMap_cons, List.length_append, List.length_cons]
    omega

theorem byteText_ne_nil (quote b : ℕ) : byteText quote b ≠ [] := by
  unfold byteText
  split_ifs <;> simp

theorem length_le_flatMap {α β : Type} {f : α → List β} (hf : ∀ a, f a ≠ []) (l : List α) :
    l.length ≤ (l.flatMap f).length := by
  induction l with
  | nil => exact Nat.zero_le _
  | cons a l ih =>
    have hpos := List.length_pos_of_ne_nil (hf a)
    rw [List.flatMap_cons, List.length_append, List.length_cons]
    omega

theorem length_bytesRepr (bs : List ℕ) : bs.length + 3 ≤ (bytesRepr bs).toList.length := by
  have hbytes := length_le_flatMap (byteText_ne_nil (bytesQuote bs)) bs
  simp only [bytesRepr, String.toList_ofList, List.length_cons, List.length_append]
  omega

theorem strip_bytesRepr (bs : List ℕ) : strip (bytesRepr bs) = bytesRepr bs := by
  have hquote : isSpace (Char.ofNat (bytesQuote bs)) = false := by
    unfold bytesQuote
    split_ifs <;> decide
  have hlist : (bytesRepr bs).toList = 'b' :: ((Char.ofNat (bytesQuote bs) ::
      bs.flatMap (byteText (bytesQuote bs))) ++ [Char.ofNat (bytesQuote bs)]) := by
    rw [bytesRepr, String.toList_ofList]
  exact strip_of_ends hlist (by decide) hquote

/-- The literal of the bytes of a text, in lower case, is not the text. -/
theorem lower_bytesRepr_ne (s : String) : lower (bytesRepr (Octets.encodeText s)) ≠ s := by
  intro h
  have hlower := length_le_flatMap lowerChar_ne_nil (bytesRepr (Octets.encodeText s)).toList
  have hrepr := length_bytesRepr (Octets.encodeText s)
  have htext := length_le_encodeText s
  have hlength := congrArg (List.length ∘ String.toList) h
  rw [Function.comp_apply, Function.comp_apply, lower, String.toList_ofList] at hlength
  omega

end Py
