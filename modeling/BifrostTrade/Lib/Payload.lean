import BifrostTrade.Lib.Calendar
import BifrostTrade.Lib.FloatRepr

/-!
# Payloads

Values of a payload that may be of any type, and what Python makes of them: their truth, their
text, and the numbers and dates they spell.
-/

namespace Py

/-- A value of a payload; of a list or an object, whether it is empty and its text. -/
inductive PayloadValue where
  | null
  | bool (b : Bool)
  | int (n : ℤ)
  | float (x : Double)
  | text (s : String)
  | container (empty : Bool) (repr : String)
  deriving DecidableEq

/-- `int(s)` of a text; `none` where it raises `ValueError`. -/
def parseInt (s : String) : Option ℤ :=
  let (neg, cs) := takeSign (strip s).toList
  match takeDigits false cs with
  | (d :: ds, []) => some (if neg then -digitsValue (d :: ds) else digitsValue (d :: ds))
  | _ => none

example : parseInt " -1_0 " = some (-10) := by decide

namespace PayloadValue

/-- Whether the value counts as true. -/
def truthy : PayloadValue → Bool
  | null => false
  | bool b => b
  | int n => n ≠ 0
  | float x => x ≠ .fin 0
  | text s => s ≠ ""
  | container empty _ => !empty

/-- `str(value)`. -/
def str : PayloadValue → String
  | null => "None"
  | bool b => if b then "True" else "False"
  | int n => toString n
  | float x => reprFloat x
  | text s => s
  | container _ repr => repr

/-- `str(value or "")`. -/
def strOrEmpty (v : PayloadValue) : String := if v.truthy then v.str else ""

/-- Whether `int(value)` raises `OverflowError`. -/
def overflows (v : PayloadValue) : Bool := v = float .posInf ∨ v = float .negInf

/-- `int(value)`, where it does not raise. -/
def toInt : PayloadValue → Option ℤ
  | bool b => some (if b then 1 else 0)
  | int n => some n
  | float x => x.toInt
  | text s => parseInt s
  | _ => none

/-- `float(value)` as a double; `none` where it raises. -/
def toDouble : PayloadValue → Option Double
  | .bool b => some (.fin (if b then 1 else 0))
  | .int n => if (nearest n).isInf then none else some (nearest n)
  | .float x => some x
  | .text s => readFloat s
  | _ => none

/-- Whether `float(value)` raises `OverflowError`. -/
def tooLarge : PayloadValue → Bool
  | int n => (nearest n).isInf
  | _ => false

/-- `float(value)` when that is a finite number. -/
def finite (v : PayloadValue) : Option ℚ :=
  match v.toDouble with
  | some (.fin x) => some x
  | _ => none

end PayloadValue

/-! ## Dates -/

/-- A month of `strptime`: `1[0-2]|0[1-9]|[1-9]`. -/
def strptimeMonth : List Char → Option ℕ
  | [c] => (Date.digitValue c).filter fun m => 1 ≤ m
  | ['0', c] => (Date.digitValue c).filter fun m => 1 ≤ m
  | ['1', c] => ((Date.digitValue c).filter fun m => m ≤ 2).map fun m => 10 + m
  | _ => none

/-- A day of `strptime`: `3[0-1]|[1-2]\d|0[1-9]|[1-9]| [1-9]`. -/
def strptimeDay : List Char → Option ℕ
  | [c] => (Date.digitValue c).filter fun d => 1 ≤ d
  | ['0', c] => (Date.digitValue c).filter fun d => 1 ≤ d
  | [' ', c] => (Date.digitValue c).filter fun d => 1 ≤ d
  | ['1', c] => (decimalValue c).map fun d => 10 + d
  | ['2', c] => (decimalValue c).map fun d => 20 + d
  | ['3', c] => ((Date.digitValue c).filter fun d => d ≤ 1).map fun d => 30 + d
  | _ => none

/-- `datetime.strptime(s, "%Y-%m-%d").date()`; `none` where it raises `ValueError`. -/
def strptimeDate (s : String) : Option Date :=
  match s.toList with
  | y3 :: y2 :: y1 :: y0 :: '-' :: rest => do
      let year ← [y3, y2, y1, y0].mapM decimalValue
      let month ← strptimeMonth (rest.takeWhile fun c => c ≠ '-')
      let day ← strptimeDay ((rest.dropWhile fun c => c ≠ '-').drop 1)
      Date.ofYmd (digitsValue year) month day
  | _ => none

example : strptimeDate "2026-1-05" = Date.ofYmd 2026 1 5 := by decide +kernel

end Py
