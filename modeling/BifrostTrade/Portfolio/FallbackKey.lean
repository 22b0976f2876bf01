import BifrostTrade.Lib.FloatRepr
import BifrostTrade.Lib.Payload
import BifrostTrade.Portfolio.ContractKey

/-!
# Option keys made at read time

The key an option row that is stored without one is given when it is read
(`portfolio/contract_key.py`, `read_fallback_opt_key`), and the parts it is joined from.
-/

namespace Portfolio

open Py

/-- The fields of a row that the key is made from. -/
structure FallbackRow where
  secType : Option String
  contractKey : Option String
  symbol : Option String
  expiry : PayloadValue
  strike : PayloadValue
  optionRight : Option String
  right : Option String

/-- `SYMBOL|OPT|EXPIRY|STRIKE|RIGHT` from parts that are texts. -/
def optKeyText (symbol expiry strike right : String) : String :=
  symbol ++ "|OPT|" ++ expiry ++ "|" ++ strike ++ "|" ++ right

/-- `math.isfinite` of an integer raises `OverflowError` where no double is near it. -/
def intIsFinite (n : ℤ) : Option Bool := if (nearest n).isInf then none else some true

/-- The expiry of the key; `none` where it raises. -/
def fallbackExpiryText (expiry : PayloadValue) : Option String :=
  match if expiry.truthy then expiry else .text "" with
  | .bool b => some (if b then "1" else "0")
  | .int n => (intIsFinite n).map fun _ => toString n
  | .float x => x.toInt.map toString
  | .text s => some (String.ofList ((strip s).toList.filter (· ≠ '-')))
  | .null => none
  | .container _ _ => none

/-- `str(int(x)) if x == int(x) else str(float(x))` of a finite number. -/
def plainNumeral (x : ℚ) : String := if x.den = 1 then toString x.num else reprFloat (.fin x)

/-- `_fallback_strike_text` of a value that is not a text; `none` where it raises. -/
def fallbackStrikeText : PayloadValue → Option String
  | .bool b => some (if b then "1" else "0")
  | .int n => (intIsFinite n).map fun _ => toString n
  | .float (.fin x) => some (plainNumeral x)
  | .float _ => some ""
  | _ => none

/-- The strike of the key: a text as it stands, a number as `_fallback_strike_text` prints it. -/
def fallbackStrike : PayloadValue → Option String
  | .null => some ""
  | .text s => some (strip s)
  | strike => fallbackStrikeText strike

/-- A word for the right cut to one letter. -/
def oneLetter (right : String) : String :=
  if 1 < right.length then
    if right.toList.head? = some 'C' then "C"
    else if right.toList.head? = some 'P' then "P"
    else String.ofList (right.toList.take 1)
  else right

/-- The right of the key: `option_right`, or `right` where it is blank. -/
def fallbackRight (row : FallbackRow) : String :=
  let right := oneLetter (upper (strip (textOrEmpty row.optionRight)))
  if right = "" then String.ofList ((upper (strip (textOrEmpty row.right))).toList.take 1)
  else right

/-- `read_fallback_opt_key`; the outer `none` where it raises. -/
def readFallbackOptKey (row : FallbackRow) : Option (Option String) :=
  if upper (strip (textOrEmpty row.secType)) ≠ "OPT" then some none
  else if strip (textOrEmpty row.contractKey) ≠ "" then some none
  else
    (fallbackExpiryText row.expiry).bind fun expiry =>
      (fallbackStrike row.strike).map fun strike =>
        some (optKeyText (strip (textOrEmpty row.symbol)) expiry strike (fallbackRight row))

/-- The row of the golden test with this strike. -/
def goldenRow (strike : PayloadValue) : FallbackRow where
  secType := some "OPT"
  contractKey := none
  symbol := some "RKLB"
  expiry := .text "2026-03-20"
  strike := strike
  optionRight := some "CALL"
  right := none

example : readFallbackOptKey (goldenRow (.float (.fin (165 / 2)))) =
    some (some "RKLB|OPT|20260320|82.5|C") := by decide +kernel

end Portfolio
