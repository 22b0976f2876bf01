import BifrostTrade.Lib.FloatRepr
import BifrostTrade.Lib.IsoTime
import BifrostTrade.Lib.JsonValue

/-!
# Conversions of JSON values

`int`, `float` and `str` of a JSON value with the exceptions they raise, `format(x, "g")` and the
datetime of a Unix time.  `int` and `str` refuse integers of more than 4300 digits, `float` those
beyond the doubles.
-/

namespace Py

/-- The exceptions of a conversion. -/
inductive Raised where
  | valueError
  | typeError
  | overflowError
  deriving DecidableEq

/-- What was read, or `ValueError`. -/
def orValueError {α : Type} : Option α → Except Raised α
  | some a => .ok a
  | none => .error .valueError

/-! ## Texts -/

/-- The characters of a text.  A lone surrogate is none and counts as NUL, which is no space, no
digit and no part of a number or a date either. -/
def pointsText (points : List ℕ) : String := String.ofList (points.map Char.ofNat)

/-- A code point that `strip` drops. -/
def isSpacePoint (n : ℕ) : Bool := isSpace (Char.ofNat n)

/-- `str.strip()`. -/
def stripPoints (points : List ℕ) : List ℕ :=
  (points.dropWhile isSpacePoint).rdropWhile isSpacePoint

theorem stripPoints_stripPoints (points : List ℕ) :
    stripPoints (stripPoints points) = stripPoints points := by
  rw [stripPoints, stripPoints, dropWhile_trimmed, List.rdropWhile_idempotent]

/-! ## Integers as text -/

/-- An integer whose digits `str` writes. -/
def Printable (n : ℤ) : Prop := (Nat.toDigits 10 n.natAbs).length ≤ Json.maxIntDigits

instance (n : ℤ) : Decidable (Printable n) := inferInstanceAs (Decidable (_ ≤ _))

/-- `str(n)`. -/
def intText (n : ℤ) : Except Raised String :=
  if Printable n then .ok (toString n) else .error .valueError

/-- `int(s)`. -/
def intOfText (s : String) : Except Raised ℤ :=
  if Json.maxIntDigits < (takeDigits false (takeSign (strip s).toList).2).1.length then
    .error .valueError
  else orValueError (parseInt s)

/-! ## Numbers -/

/-- `float(value)`. -/
def floatOf : Json.Value → Except Raised Double
  | .bool b => .ok (.fin (if b then 1 else 0))
  | .int n => if (nearest n).isInf then .error .overflowError else .ok (nearest n)
  | .float x => .ok x
  | .text points => orValueError (readFloat (pointsText points))
  | _ => .error .typeError

/-- `int(value)`. -/
def intOf : Json.Value → Except Raised ℤ
  | .bool b => .ok (if b then 1 else 0)
  | .int n => .ok n
  | .float x =>
      match x.toInt with
      | some n => .ok n
      | none => if x.isInf then .error .overflowError else .error .valueError
  | .text points => intOfText (pointsText points)
  | _ => .error .typeError

/-! ## Texts of values -/

open Py.Iso (codes) in
/-- `str(value)`; `inner` is the text between the brackets of a list or an object, where it can be
written. -/
def strOf (inner : Json.Value → Except Raised (List ℕ)) : Json.Value → Except Raised (List ℕ)
  | .null => .ok (codes "None".toList)
  | .bool b => .ok (codes (if b then "True" else "False").toList)
  | .int n => (intText n).map fun s => codes s.toList
  | .float x => .ok (codes (reprFloat x).toList)
  | .text points => .ok points
  | .array items => (inner (.array items)).map fun s => 91 :: s ++ [93]
  | .object members => (inner (.object members)).map fun s => 123 :: s ++ [125]

/-- Whether the value counts as true. -/
def Json.Value.truthy : Json.Value → Bool
  | .null => false
  | .bool b => b
  | .int n => n ≠ 0
  | .float x => x ≠ .fin 0
  | .text points => points ≠ []
  | .array items => !items.isEmpty
  | .object members => !members.isEmpty

/-- The value of a key, `None` where it is missing. -/
def Json.field (members : List (List ℕ × Json.Value)) (key : String) : Json.Value :=
  (members.lookup (Iso.codes key.toList)).getD .null

/-! ## Formatted numbers -/

/-- Trailing zeros of a fraction dropped, and its point if nothing is left. -/
def trimFraction (frac : List Char) : List Char :=
  match frac.rdropWhile (· = '0') with
  | [] => []
  | kept => '.' :: kept

/-- `format(x, "g")`: six digits, fixed notation from `0.0001` up to a million. -/
def generalText : Double → String
  | .posInf => "inf"
  | .negInf => "-inf"
  | .nan => "nan"
  | .fin x =>
      if x = 0 then "0"
      else
        let e := Int.log 10 |x|
        let n := (round (|x| / 10 ^ (e - 5))).toNat
        let (n, e) := if n = 1000000 then (100000, e + 1) else (n, e)
        let ds := natText 6 n
        let sign := if x < 0 then ['-'] else []
        if -4 ≤ e ∧ e < 0 then
          String.ofList (sign ++ '0' :: trimFraction (List.replicate (-e - 1).toNat '0' ++ ds))
        else if 0 ≤ e ∧ e < 6 then
          String.ofList (sign ++ ds.take (e.toNat + 1) ++ trimFraction (ds.drop (e.toNat + 1)))
        else
          String.ofList (sign ++ ds.take 1 ++ trimFraction (ds.drop 1) ++
            'e' :: (if e < 0 then '-' else '+') :: natText 2 e.natAbs)

example : generalText (.fin (1 / 8)) = "0.125" ∧ generalText (.fin 12345678) = "1.23457e+07" := by
  decide +kernel

/-- `x < y`. -/
def Double.lt : Double → Double → Bool
  | .fin x, .fin y => x < y
  | .fin _, .posInf => true
  | .negInf, .fin _ => true
  | .negInf, .posInf => true
  | _, _ => false

/-! ## Unix times -/

/-- A time of day in microseconds has its fields in range. -/
theorem clock_of_micros (micros : ℤ) :
    (micros % 86400000000).toNat / 3600000000 < 24 ∧
      (micros % 86400000000).toNat / 60000000 % 60 < 60 ∧
      (micros % 86400000000).toNat / 1000000 % 60 < 60 ∧
      (micros % 86400000000).toNat % 1000000 < 1000000 := by
  omega

theorem utc_offset_lt : ∀ o ∈ some (0 : ℤ), o.natAbs < 86400000000 := by
  intro o ho
  obtain rfl := Option.some.inj ho
  decide

/-- The datetime in UTC of microseconds since 1970. -/
def DateTime.ofUtcMicros (micros : ℤ) : Option DateTime :=
  (Date.ofOrdinal ((Date.epoch.toOrdinal : ℤ) + micros / 86400000000).toNat).map fun date =>
    { date
      hour := (micros % 86400000000).toNat / 3600000000
      minute := (micros % 86400000000).toNat / 60000000 % 60
      second := (micros % 86400000000).toNat / 1000000 % 60
      microsecond := (micros % 86400000000).toNat % 1000000
      offset := some 0
      clock_lt := clock_of_micros micros
      offset_lt := utc_offset_lt }

/-- `datetime.fromtimestamp(x, tz=utc)`; `none` where it raises. -/
def DateTime.fromTimestampUtc (x : Double) : Option DateTime :=
  (fromTimestamp (.float x)).bind DateTime.ofUtcMicros

end Py
