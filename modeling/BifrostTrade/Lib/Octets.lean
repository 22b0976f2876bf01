import BifrostTrade.Lib.Text

/-!
# Bytes

UTF-8, and the URL-safe base64 of Python.  The decoder is lenient: it skips what is not of the
alphabet, takes either alphabet, does not look at spare bits and stops at the padding.  It reads
what the encoder writes (`b64decode_b64encode`).
-/

namespace Py.Octets

/-! ## UTF-8 -/

/-- The bytes of a code point; a surrogate has none. -/
def utf8Bytes (n : ℕ) : Option (List ℕ) :=
  if n < 128 then some [n]
  else if n < 2048 then some [192 + n / 64, 128 + n % 64]
  else if 55296 ≤ n ∧ n < 57344 then none
  else if n < 65536 then some [224 + n / 4096, 128 + n / 64 % 64, 128 + n % 64]
  else some [240 + n / 262144, 128 + n / 4096 % 64, 128 + n / 64 % 64, 128 + n % 64]

/-- `s.encode("utf-8")` of code points; `none` where it raises. -/
def utf8Encode (points : List ℕ) : Option (List ℕ) :=
  (points.mapM utf8Bytes).map List.flatten

/-- A byte that continues a character of UTF-8. -/
def isContinuation (b : ℕ) : Bool := 128 ≤ b ∧ b < 192

/-- The first code point of some bytes, in its shortest form, and the bytes after it. -/
def utf8Point : List ℕ → Option (ℕ × List ℕ)
  | [] => none
  | a :: rest =>
      if a < 128 then some (a, rest)
      else if 194 ≤ a ∧ a < 224 then
        match rest with
        | b :: rest =>
            if isContinuation b then some ((a - 192) * 64 + (b - 128), rest) else none
        | _ => none
      else if 224 ≤ a ∧ a < 240 then
        match rest with
        | b :: c :: rest =>
            let n := (a - 224) * 4096 + (b - 128) * 64 + (c - 128)
            if isContinuation b ∧ isContinuation c ∧ 2048 ≤ n ∧ ¬ (55296 ≤ n ∧ n < 57344) then
              some (n, rest)
            else none
        | _ => none
      else if 240 ≤ a ∧ a < 245 then
        match rest with
        | b :: c :: d :: rest =>
            let n := (a - 240) * 262144 + (b - 128) * 4096 + (c - 128) * 64 + (d - 128)
            if isContinuation b ∧ isContinuation c ∧ isContinuation d ∧ 65536 ≤ n ∧ n < 1114112 then
              some (n, rest)
            else none
        | _ => none
      else none

/-- The code points of bytes, at most one for each unit of fuel. -/
def utf8Points : ℕ → List ℕ → Option (List ℕ)
  | _, [] => some []
  | 0, _ => none
  | fuel + 1, bytes =>
      (utf8Point bytes).bind fun r => (utf8Points fuel r.2).map fun ns => r.1 :: ns

/-- `bytes.decode("utf-8")`; `none` where it raises. -/
def utf8Decode (bytes : List ℕ) : Option (List Char) :=
  (utf8Points bytes.length bytes).map fun ns => ns.map Char.ofNat

theorem utf8Point_ascii {a : ℕ} (h : a < 128) (rest : List ℕ) :
    utf8Point (a :: rest) = some (a, rest) := by
  unfold utf8Point
  exact if_pos h

theorem utf8Decode_ascii {cs : List Char} (h : ∀ c ∈ cs, c.toNat < 128) :
    utf8Decode (cs.map Char.toNat) = some cs := by
  have hpoints : utf8Points (cs.map Char.toNat).length (cs.map Char.toNat) =
      some (cs.map Char.toNat) := by
    induction cs with
    | nil => rfl
    | cons c cs ih =>
      obtain ⟨hc, hcs⟩ := List.forall_mem_cons.1 h
      rw [List.map_cons, List.length_cons, utf8Points, utf8Point_ascii hc, Option.bind_some,
        ih hcs, Option.map_some]
      exact List.cons_ne_nil _ _
  rw [utf8Decode, hpoints, Option.map_some, List.map_map]
  exact congrArg some ((List.map_congr_left fun c _ => Char.ofNat_toNat c).trans (List.map_id cs))

theorem utf8Encode_ascii {points : List ℕ} (h : ∀ n ∈ points, n < 128) :
    utf8Encode points = some points := by
  have hbytes : points.mapM utf8Bytes = some (points.map fun n => [n]) := by
    induction points with
    | nil => rfl
    | cons n points ih =>
      obtain ⟨hn, hrest⟩ := List.forall_mem_cons.1 h
      rw [List.mapM_cons, utf8Bytes, if_pos hn, ih hrest]
      rfl
  rw [utf8Encode, hbytes, Option.map_some, List.map_eq_flatMap]
  simp [List.flatten_eq_flatMap, List.flatMap_assoc]

/-! ## Base64 -/

/-- The URL-safe alphabet. -/
def sextetChar (v : ℕ) : Char :=
  if v < 26 then Char.ofNat (65 + v)
  else if v < 52 then Char.ofNat (97 + (v - 26))
  else if v < 62 then Char.ofNat (48 + (v - 52))
  else if v = 62 then '-'
  else '_'

/-- The value of a character of either alphabet. -/
def sextetValue (c : Char) : Option ℕ :=
  let n := c.toNat
  if 65 ≤ n ∧ n ≤ 90 then some (n - 65)
  else if 97 ≤ n ∧ n ≤ 122 then some (n - 97 + 26)
  else if 48 ≤ n ∧ n ≤ 57 then some (n - 48 + 52)
  else if c = '-' ∨ c = '+' then some 62
  else if c = '_' ∨ c = '/' then some 63
  else none

/-- Six bits for each character of the code. -/
def sextets : List ℕ → List ℕ
  | a :: b :: c :: rest =>
      a / 4 :: (a % 4 * 16 + b / 16) :: (b % 16 * 4 + c / 64) :: c % 64 :: sextets rest
  | [a, b] => [a / 4, a % 4 * 16 + b / 16, b % 16 * 4]
  | [a] => [a / 4, a % 4 * 16]
  | [] => []

/-- `base64.urlsafe_b64encode(bytes).rstrip("=")`. -/
def b64encode (bytes : List ℕ) : List Char := (sextets bytes).map sextetChar

/-- The loop of `binascii.a2b_base64`: the place in the quad, the bits left over and the padding
so far. -/
def a2b (quad left pads : ℕ) : List Char → Option (List ℕ)
  | [] => if quad = 0 then some [] else none
  | c :: cs =>
      if c = '=' then
        if 2 ≤ quad ∧ 4 ≤ quad + (pads + 1) then some []
        else a2b quad left (if 2 ≤ quad then pads + 1 else pads) cs
      else match sextetValue c with
        | none => a2b quad left pads cs
        | some v =>
            if quad = 0 then a2b 1 v 0 cs
            else if quad = 1 then (a2b 2 (v % 16) 0 cs).map fun bs => (left * 4 + v / 16) :: bs
            else if quad = 2 then (a2b 3 (v % 4) 0 cs).map fun bs => (left * 16 + v / 4) :: bs
            else (a2b 0 0 0 cs).map fun bs => (left * 64 + v) :: bs

/-- `base64.urlsafe_b64decode(s)`; `none` where it raises. -/
def b64decode (s : List Char) : Option (List ℕ) :=
  if s.all fun c => c.toNat < 128 then a2b 0 0 0 s else none

/-- `"=" * (-len(s) % 4)`. -/
def padding (s : List Char) : List Char := List.replicate ((4 - s.length % 4) % 4) '='

theorem sextetValue_sextetChar {v : ℕ} (hv : v < 64) : sextetValue (sextetChar v) = some v := by
  have hall : ∀ v : Fin 64, sextetValue (sextetChar v) = some v.val := by decide
  exact hall ⟨v, hv⟩

theorem sextetChar_ascii (v : ℕ) : (sextetChar v).toNat < 128 ∧ sextetChar v ≠ '=' := by
  by_cases hv : v < 64
  · have hall : ∀ v : Fin 64, (sextetChar v).toNat < 128 ∧ sextetChar v ≠ '=' := by decide
    exact hall ⟨v, hv⟩
  · rw [sextetChar, if_neg (by omega), if_neg (by omega), if_neg (by omega), if_neg (by omega)]
    decide

/-- A character of the code is read as its value. -/
theorem a2b_sextetChar (quad left : ℕ) {v : ℕ} (hv : v < 64) (cs : List Char) :
    a2b quad left 0 (sextetChar v :: cs) =
      if quad = 0 then a2b 1 v 0 cs
      else if quad = 1 then (a2b 2 (v % 16) 0 cs).map fun bs => (left * 4 + v / 16) :: bs
      else if quad = 2 then (a2b 3 (v % 4) 0 cs).map fun bs => (left * 16 + v / 4) :: bs
      else (a2b 0 0 0 cs).map fun bs => (left * 64 + v) :: bs := by
  rw [a2b, if_neg (sextetChar_ascii v).2, sextetValue_sextetChar hv]

theorem a2b_two_pads (left : ℕ) : a2b 2 left 0 ['=', '='] = some [] := by
  simp [a2b]

theorem a2b_one_pad (left : ℕ) : a2b 3 left 0 ['='] = some [] := by
  simp [a2b]

/-- The loop reads the code back, at the padding of its length. -/
theorem a2b_sextets {bytes : List ℕ} (h : ∀ b ∈ bytes, b < 256) :
    a2b 0 0 0 (b64encode bytes ++ padding (b64encode bytes)) = some bytes := by
  unfold b64encode
  fun_induction sextets bytes with
  | case1 a b c rest ih =>
    simp only [List.forall_mem_cons] at h
    obtain ⟨ha, hb, hc, hrest⟩ := h
    have hpad : padding (sextetChar (a / 4) :: sextetChar (a % 4 * 16 + b / 16) ::
        sextetChar (b % 16 * 4 + c / 64) :: sextetChar (c % 64) :: (sextets rest).map sextetChar) =
          padding ((sextets rest).map sextetChar) := by
      simp only [padding, List.length_cons]
      congr 1
      omega
    simp only [List.map_cons, List.cons_append, hpad]
    rw [a2b_sextetChar 0 0 (by omega), if_pos rfl, a2b_sextetChar 1 _ (by omega), if_neg (by omega),
      if_pos rfl, a2b_sextetChar 2 _ (by omega), if_neg (by omega), if_neg (by omega), if_pos rfl,
      a2b_sextetChar 3 _ (by omega), if_neg (by omega), if_neg (by omega), if_neg (by omega),
      ih hrest]
    simp only [Option.map_some, Option.some.injEq, List.cons.injEq, and_true]
    refine ⟨?_, ?_, ?_⟩ <;> omega
  | case2 a b =>
    simp only [List.forall_mem_cons] at h
    obtain ⟨ha, hb, -⟩ := h
    have hpad : padding [sextetChar (a / 4), sextetChar (a % 4 * 16 + b / 16),
        sextetChar (b % 16 * 4)] = ['='] := rfl
    simp only [List.map_cons, List.map_nil, hpad, List.cons_append, List.nil_append]
    rw [a2b_sextetChar 0 0 (by omega), if_pos rfl, a2b_sextetChar 1 _ (by omega), if_neg (by omega),
      if_pos rfl, a2b_sextetChar 2 _ (by omega), if_neg (by omega), if_neg (by omega), if_pos rfl,
      a2b_one_pad]
    simp only [Option.map_some, Option.some.injEq, List.cons.injEq, and_true]
    constructor <;> omega
  | case3 a =>
    have ha : a < 256 := h a List.mem_cons_self
    have hpad : padding [sextetChar (a / 4), sextetChar (a % 4 * 16)] = ['=', '='] := rfl
    simp only [List.map_cons, List.map_nil, hpad, List.cons_append, List.nil_append]
    rw [a2b_sextetChar 0 0 (by omega), if_pos rfl, a2b_sextetChar 1 _ (by omega), if_neg (by omega),
      if_pos rfl, a2b_two_pads]
    simp only [Option.map_some, Option.some.injEq, List.cons.injEq, and_true]
    omega
  | case4 => rfl

/-- Decoding the padded code gives the bytes back. -/
theorem b64decode_b64encode {bytes : List ℕ} (h : ∀ b ∈ bytes, b < 256) :
    b64decode (b64encode bytes ++ padding (b64encode bytes)) = some bytes := by
  have hascii : (b64encode bytes ++ padding (b64encode bytes)).all fun c => c.toNat < 128 := by
    rw [List.all_append, Bool.and_eq_true, List.all_eq_true, List.all_eq_true]
    constructor
    · intro c hc
      obtain ⟨v, -, rfl⟩ := List.mem_map.1 hc
      exact decide_eq_true (sextetChar_ascii v).1
    · intro c hc
      rw [List.eq_of_mem_replicate hc]
      decide
  rw [b64decode, if_pos hascii, a2b_sextets h]

example : b64decode "eyJ2IjoxfQ==ignored".toList =
    some ("\x7b\"v\":1\x7d".toList.map Char.toNat) := by decide +kernel

end Py.Octets
