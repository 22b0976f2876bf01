import BifrostTrade.Lib.Refusals

/-!
# The validators of the writers

The field validators of `monitor/reader/write_support.py`, on values that come from JSON.  Each
answers the checked value or raises `WriteInvalid`; what the conversions of Python raise is caught
in some of them and goes through in others.
-/

namespace Portfolio.WriteSupport

open Py
open Py.Iso (codes)

/-- `WriteInvalid`. -/
def refuse {α : Type} (name message : String) : Except Failure α :=
  .error (.refused (name ++ message))

/-- A refusal whose message has an integer in it. -/
def refuseWith {α : Type} (name before : String) (n : ℤ) (after : String) : Except Failure α :=
  match intText n with
  | .ok digits => refuse name (before ++ digits ++ after)
  | .error e => .error (.raised e)

/-! ## The validators -/

/-- `text`. -/
def text (value : Json.Value) (name : String) (nullable : Bool) (maxLen : Option ℤ) :
    Except Failure (Option (List ℕ)) :=
  match value with
  | .null => if nullable then .ok none else refuse name " is required."
  | .text points =>
      let out := stripPoints points
      if out = [] then
        if nullable then refuse name " is blank; send null to clear it."
        else refuse name " is required."
      else match maxLen with
        | some m =>
            if m < out.length then refuseWith name " is longer than " m " characters."
            else .ok (some out)
        | none => .ok (some out)
  | _ => refuse name " must be text."

/-- The check against the minimum. -/
def bounded (name : String) (minimum : Option ℤ) (out : ℤ) : Except Failure (Option ℤ) :=
  match minimum with
  | some m => if out < m then refuseWith name " must be " m " or more." else .ok (some out)
  | none => .ok (some out)

/-- `value.strip().lstrip("-").isdigit()`. -/
def isDigitText (points : List ℕ) : Bool :=
  let digits := (strip (pointsText points)).toList.dropWhile fun c => c = '-'
  digits ≠ [] ∧ digits.all isDigit

/-- `integer`. -/
def integer (value : Json.Value) (name : String) (nullable : Bool) (minimum : Option ℤ) :
    Except Failure (Option ℤ) :=
  match value with
  | .null => if nullable then .ok none else refuse name " is required."
  | .int n => bounded name minimum n
  | .float (.fin x) =>
      if x.den = 1 then bounded name minimum x.num else refuse name " must be a whole number."
  | .text points =>
      if isDigitText points then
        match intOfText (strip (pointsText points)) with
        | .ok n => bounded name minimum n
        | .error e => .error (.raised e)
      else refuse name " must be a whole number."
  | _ => refuse name " must be a whole number."

/-- `row_id`. -/
def rowId (value : Json.Value) (name : String) (nullable : Bool) : Except Failure (Option ℤ) :=
  integer value name nullable (some 1)

/-- The checks of a number that was converted. -/
def finiteFrom (name : String) (minimum : Option Double) (out : Double) :
    Except Failure (Option Double) :=
  if out.isFinite = false then refuse name " must be a finite number."
  else match minimum with
    | some m =>
        if out.lt m then refuse name (" must be " ++ generalText m ++ " or more.")
        else .ok (some out)
    | none => .ok (some out)

/-- `number`. -/
def number (value : Json.Value) (name : String) (nullable : Bool) (minimum : Option Double) :
    Except Failure (Option Double) :=
  match value with
  | .null => if nullable then .ok none else refuse name " is required."
  | .int _ | .float _ =>
      match floatOf value with
      | .ok out => finiteFrom name minimum out
      | .error e => .error (.raised e)
  | _ => refuse name " must be a number."

/-- `boolean`. -/
def boolean (value : Json.Value) (name : String) : Except Failure Bool :=
  match value with
  | .bool b => .ok b
  | _ => refuse name " must be true or false."

/-- Texts are compared point by point. -/
instance lawfulPoints : LawfulBEq (List ℕ) := inferInstance

/-- `choice`. -/
def choice (value : Json.Value) (name : String) (options : List String) (nullable : Bool) :
    Except Failure (Option (List ℕ)) :=
  match text value name nullable none with
  | .ok (some out) =>
      if out ∈ options.map fun s => codes s.toList then .ok (some out)
      else refuse name (" must be one of " ++ ", ".intercalate options ++ ".")
  | answer => answer

/-- A datetime without an offset is read as UTC. -/
def withUtc (t : DateTime) : DateTime :=
  if t.offset.isSome then t else { t with offset := some 0, offset_lt := utc_offset_lt }

/-- `Z` at the end is the offset of UTC. -/
def zuluOffset (raw : List ℕ) : List ℕ :=
  if raw.getLast? = some 90 then raw.dropLast ++ codes "+00:00".toList else raw

/-- `timestamp`. -/
def timestamp (value : Json.Value) (name : String) (nullable : Bool) :
    Except Failure (Option DateTime) :=
  match value with
  | .null => if nullable then .ok none else refuse name " is required."
  | .int _ | .float _ =>
      -- what `float` and `fromtimestamp` raise is caught
      match (floatOf value).toOption.bind DateTime.fromTimestampUtc with
      | some t => .ok (some t)
      | none => refuse name " is not a valid Unix time."
  | .text points =>
      if stripPoints points = [] then refuse name " must be a timestamp."
      else match Iso.datetimeFromIso (zuluOffset (stripPoints points)) with
        | some t => .ok (some (withUtc t))
        | none => refuse name " must be an ISO 8601 timestamp or Unix seconds."
  | _ => refuse name " must be a timestamp."

/-- `calendar_date`. -/
def calendarDate (value : Json.Value) (name : String) (nullable : Bool) :
    Except Failure (Option Date) :=
  match value with
  | .null => if nullable then .ok none else refuse name " is required."
  | .text points =>
      match strptimeDate (strip (pointsText points)) with
      | some d => .ok (some d)
      | none => refuse name " must be a date (YYYY-MM-DD)."
  | _ => refuse name " must be a date (YYYY-MM-DD)."

/-- `list_value`. -/
def listValue (value : Json.Value) (name : String) : Except Failure (List Json.Value) :=
  match value with
  | .null => refuse name " cannot be null; send [] to empty it."
  | .array items => .ok items
  | _ => refuse name " must be a list."

end Portfolio.WriteSupport
