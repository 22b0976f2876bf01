import BifrostTrade.Lib.Refusals

/-!
# The legs of a plan

`normalize_plan_legs` of `monitor/reader/strategy_plan.py`, on any JSON value.  Each leg is checked
field by field; what is wrong is refused with `PlanRuleError`, but the conversions of the strike,
the mid and some texts are not guarded.
-/

namespace Portfolio.PlanLegs

open Py
open Py.Iso (codes)

/-- A leg as it is stored. -/
structure Leg where
  side : String
  secType : String
  right : Option String
  strike : Option Double
  expiry : Option (List ℕ)
  ratio : ℤ
  contractKey : Option (List ℕ)
  midAtPlan : Option Double
  quoteAsof : Option (List ℕ)
  deriving DecidableEq

/-- `_LEG_SIDES`. -/
def sides : List String := ["buy", "sell"]

/-- `_LEG_SEC_TYPES`. -/
def secTypes : List String := ["OPT", "STK"]

/-- `_LEG_RIGHTS`. -/
def rights : List String := ["C", "P"]

/-! ## The checks -/

/-- The members of an object. -/
abbrev Members := List (List ℕ × Json.Value)

-- the text between the brackets of a list or an object, for `str`
variable (inner : Json.Value → Except Raised (List ℕ))

/-- `str(value or "").strip()`. -/
def strippedOrEmpty (value : Json.Value) : Except Raised (List ℕ) :=
  if value.truthy then (strOf inner value).map stripPoints else .ok []

/-- `str(value).strip() if value not in (None, "") else None`. -/
def givenText (value : Json.Value) : Except Raised (Option (List ℕ)) :=
  match value with
  | .null | .text [] => .ok none
  | value => (strOf inner value).map fun s => some (stripPoints s)

/-- A field that is one of some words after its case is changed. -/
def oneOf (options : List String) (recase : String → String) (reason : String)
    (value : Json.Value) : Except Failure String := do
  let s ← unguarded (strippedOrEmpty inner value)
  if recase (pointsText s) ∉ options then .error (.refused reason)
  else .ok (recase (pointsText s))

/-- The right, where it is given. -/
def rightOf (reason : String) (value : Json.Value) : Except Failure (Option String) := do
  let s ← unguarded (givenText inner value)
  let right := s.map fun s => upper (pointsText s)
  if ∃ r ∈ right, r ∉ rights then .error (.refused reason) else .ok right

/-- `value if value is not None else 1`. -/
def orOne : Json.Value → Json.Value
  | .null => .int 1
  | value => value

/-- `ratio`; the overflow of an infinite float goes through. -/
def ratioOf (reason : String) (value : Json.Value) : Except Failure ℤ :=
  match intOf (orOne value) with
  | .ok n => .ok n
  | .error .overflowError => .error (.raised .overflowError)
  | .error _ => .error (.refused reason)

/-- The fields that are checked. -/
structure Checked where
  side : String
  secType : String
  right : Option String
  expiry : Option (List ℕ)
  ratio : ℤ

/-- Whether the date can be read. -/
def isCalendar (expiry : List ℕ) : Bool := (strptimeDate (pointsText expiry)).isSome

/-- The value is null. -/
def isNull : Json.Value → Bool
  | .null => true
  | _ => false

/-- The checks of a leg up to its ratio. -/
def checkLeg (leg : String) (members : Members) : Except Failure Checked := do
  let side ← oneOf inner sides (fun s => lower s) (leg ++ ": side must be buy or sell")
    (Json.field members "side")
  let secType ← oneOf inner secTypes (fun s => upper s) (leg ++ ": sec_type must be OPT or STK")
    (Json.field members "sec_type")
  let right ← rightOf inner (leg ++ ": right must be C or P") (Json.field members "right")
  let expiry ← unguarded (givenText inner (Json.field members "expiry"))
  if secType = "OPT" ∧ (right = none ∨ isNull (Json.field members "strike") ∨ expiry = none) then
    .error (.refused (leg ++ ": an option leg needs right, strike and expiry"))
  else if ∃ e ∈ expiry, isCalendar e = false then
    .error (.refused (leg ++ ": expiry must be YYYY-MM-DD"))
  else do
    let ratio ← ratioOf (leg ++ ": ratio must be a whole number") (Json.field members "ratio")
    if ratio < 1 then .error (.refused (leg ++ ": ratio must be 1 or more"))
    else .ok ⟨side, secType, right, expiry, ratio⟩

/-- `float(value) if value is not None else None`. -/
def optFloat (value : Json.Value) : Except Raised (Option Double) :=
  match value with
  | .null => .ok none
  | value => (floatOf value).map some

/-- `(str(value).strip() or None) if value else None`. -/
def keyText (value : Json.Value) : Except Raised (Option (List ℕ)) :=
  (strippedOrEmpty inner value).map fun s => if s = [] then none else some s

/-- `str(value) if value else None`. -/
def quoteText (value : Json.Value) : Except Raised (Option (List ℕ)) :=
  if value.truthy then (strOf inner value).map some else .ok none

/-- The leg of the fields that were checked. -/
def buildLeg (c : Checked) (members : Members) : Except Raised Leg := do
  let strike ← optFloat (Json.field members "strike")
  let contractKey ← keyText inner (Json.field members "contract_key")
  let midAtPlan ← optFloat (Json.field members "mid_at_plan")
  let quoteAsof ← quoteText inner (Json.field members "quote_asof")
  return { side := c.side, secType := c.secType, right := c.right, strike, expiry := c.expiry,
           ratio := c.ratio, contractKey, midAtPlan, quoteAsof }

/-- A turn of the loop. -/
def normalizeLeg (number : ℕ) (raw : Json.Value) : Except Failure Leg :=
  match raw with
  | .object members => do
      let c ← checkLeg inner ("leg " ++ toString number) members
      unguarded (buildLeg inner c members)
  | _ => .error (.refused ("leg " ++ toString number ++ " is not an object"))

/-- `normalize_plan_legs`. -/
def normalizePlanLegs (value : Json.Value) : Except Failure (List Leg) :=
  match value with
  | .null => .ok []
  | .array items => (items.zipIdx 1).mapM fun item => normalizeLeg inner item.2 item.1
  | _ => .error (.refused "legs must be a list")

/-! ## The legs as JSON -/

/-- A text, or null. -/
def optText (s : Option (List ℕ)) : Json.Value := s.elim .null .text

/-- A number, or null. -/
def optNumber (x : Option Double) : Json.Value := x.elim .null .float

/-- The members of the object that is stored. -/
def Leg.members (l : Leg) : Members :=
  [(codes "side".toList, .text (codes l.side.toList)),
    (codes "sec_type".toList, .text (codes l.secType.toList)),
    (codes "right".toList, optText (l.right.map fun s => codes s.toList)),
    (codes "strike".toList, optNumber l.strike),
    (codes "expiry".toList, optText l.expiry),
    (codes "ratio".toList, .int l.ratio),
    (codes "contract_key".toList, optText l.contractKey),
    (codes "mid_at_plan".toList, optNumber l.midAtPlan),
    (codes "quote_asof".toList, optText l.quoteAsof)]

/-- A leg as JSON. -/
def Leg.json (l : Leg) : Json.Value := .object l.members

end Portfolio.PlanLegs
