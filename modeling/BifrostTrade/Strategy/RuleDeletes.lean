import BifrostTrade.Portfolio.ExecutionWriters
import BifrostTrade.Portfolio.PositionCategories
import BifrostTrade.Strategy.RuleTables

/-!
# Deleting the objects of the rules

Every deletion locks the row, asks whether the object is in use, and deletes.  The question covers
every reference that the schema would refuse the deletion for, and what the daemon's settings point
at beside: a deletion that passes it never meets a constraint, takes nothing with it but the
object's own memberships, and leaves the settings as they are (`deleteStrict_law`).
-/

namespace Strategy

open Py Sql
open Portfolio (plural)
open Portfolio.Plan (PlanRow)
open Portfolio.PositionCategories (nameList)

/-! ## Outcomes -/

/-- How a write fails. -/
inductive WriteError where
  | invalid (reason : String)
  | notFound (reason : String)
  | conflict (reason : String)
  | failed (reason : String)
  /-- A `ValueError` that is no `WriteInvalid`. -/
  | valueError (message : String)
  | raised (e : Raised)
  deriving DecidableEq

/-- What the driver adds to a message: the constraint's name. -/
abbrev Detail := Constraint → String

/-- What a reference that does not resolve means to the caller. -/
inductive OnFk where
  | invalid
  | conflict
  | notFound

/-- The checks beside the foreign keys. -/
def Constraint.isCheck : Constraint → Bool
  | .fillQuantity | .planChecks => true
  | _ => false

/-- `as_write_error` of a constraint that a statement would break. -/
def asWriteError (detail : Detail) (what : String) (onFk : OnFk) (c : Constraint) : WriteError :=
  if c.isCheck then
    .invalid ("Cannot write " ++ what ++ ": a value is out of range" ++ detail c ++ ".")
  else match onFk with
    | .conflict => .conflict
        ("Cannot delete " ++ what ++ ": other rows still reference it" ++ detail c ++ ".")
    | .notFound => .notFound ("Cannot write " ++ what ++ ": it does not exist.")
    | .invalid => .invalid
        ("Cannot write " ++ what ++ ": a referenced row does not exist" ++ detail c ++ ".")

/-! ## The object in use -/

/-- The word for the kind in messages. -/
def Kind.noun : Kind → String
  | .opportunity => "opportunity"
  | .allocation => "allocation"
  | .gateSet => "gate set"
  | .template => "template"
  | .trade => "trade"

/-- The primary key's column. -/
def Kind.key : Kind → String
  | .opportunity => "strategy_opportunity_id"
  | .allocation => "strategy_allocation_id"
  | .gateSet => "gate_safety_strategy_id"
  | .template => "strategy_template_id"
  | .trade => "trade_id"

section Checks

variable (collate : String → String → Bool) (t : RuleTables) (id : ℤ)

/-- `_check_opportunity`. -/
def checkOpportunity : Option String :=
  let trades := (t.trades.rows.filter fun x => x.opportunityId = id).length
  if trades ≠ 0 then
    some ("It has " ++ plural trades "trade" "trades" ++ "; a rule with trades stays.")
  else none

/-- `_check_allocation`. -/
def checkAllocation : Option String :=
  if t.settings.allocationId = some id then
    some "The daemon runs this allocation; set another one active first."
  else none

/-- `_check_gate_safety`. -/
def checkGateSafety : Option String :=
  let opps := (t.opportunities.rows.filter fun o => o.gateId = some id).length
  let allocs := (t.allocations.rows.filter fun a => a.gateId = some id).length
  if opps = 0 ∧ allocs = 0 ∧ t.settings.gateId = some id then
    some "The daemon's settings use this gate set; point them at another one first."
  else if opps ≠ 0 ∨ allocs ≠ 0 then
    let users :=
      (if opps ≠ 0 then [plural opps "opportunity" "opportunities"] else []) ++
        (if allocs ≠ 0 then [plural allocs "allocation" "allocations"] else [])
    let verb := if opps + allocs = 1 then "uses" else "use"
    some (" and ".intercalate users ++ " " ++ verb ++ " it; point them at another gate set first.")
  else none

/-- The structures of a template as they are named: the active ones first, then by name in the
collation of the database. -/
def templateUsers : List StructureRow :=
  (t.structures.rows.filter fun s => s.templateId = some id).mergeSort fun a b =>
    a.isActive && !b.isActive || a.isActive == b.isActive && collate a.name b.name

/-- The question of `delete_template_strict`. -/
def checkTemplate : Option String :=
  let users := templateUsers collate t id
  if users ≠ [] then
    let names := users.map fun s => s.name ++ if s.isActive then "" else " (deactivated)"
    let verb := if users.length = 1 then "uses" else "use"
    let them := if users.length = 1 then "it" else "them"
    some (plural users.length "structure" "structures" ++ " " ++ verb ++ " this template: " ++
      nameList names ++ ". Point " ++ them ++ " at another template first.")
  else none

/-- The questions of `delete_instance_strict`: splits, whole fills, plans and the review. -/
def checkTrade : Option String :=
  let attributed := t.fills.rows.filter fun x => x.tradeId = id
  let direct := (attributed.filter fun x => x.splitQuantity.isNone).length
  let split := (attributed.filter fun x => x.splitQuantity.isSome).length
  let plans := (t.plans.rows.filter fun p => p.tradeId = some id).length
  let reviews := (t.reviews.rows.filter fun r => r.tradeId = id).length
  if split ≠ 0 then
    some (plural split "fill is" "fills are" ++
      " split to this trade; move or clear those splits first.")
  else if direct ≠ 0 then
    some (plural direct "fill is" "fills are" ++ " attributed to this trade.")
  else if plans ≠ 0 ∨ reviews ≠ 0 then
    let held :=
      (if plans ≠ 0 then [plural plans "plan was" "plans were" ++ " filled by it"] else []) ++
        (if reviews ≠ 0 then ["it has a review"] else [])
    some ("Cannot delete instance " ++ toString id ++ ": " ++ " and ".intercalate held ++ ".")
  else none

/-- The reason why the object stays. -/
def inUse : Kind → Option String
  | .opportunity => checkOpportunity t id
  | .allocation => checkAllocation t id
  | .gateSet => checkGateSafety t id
  | .template => checkTemplate collate t id
  | .trade => checkTrade t id

end Checks

/-! ## The deletions -/

section Deletes

variable (detail : Detail) (collate : String → String → Bool) (db : RuleDb) (k : Kind) (id : ℤ)

/-- `_delete_strict`, `delete_template_strict` and `delete_instance_strict`: the key of the row that
is gone, and the tables without it. -/
def deleteStrict : Except WriteError ((String × ℤ) × RuleDb) :=
  if db.tables.has k id = false then
    .error (.notFound ("No " ++ k.noun ++ " " ++ toString id ++ "."))
  else match inUse collate db.tables id k with
    | some reason => .error (.conflict reason)
    | none =>
        match (db.tables.remove k id).check with
        | .error c => .error (asWriteError detail (k.noun ++ " " ++ toString id) .conflict c)
        | .ok after => .ok ((k.key, id), after)

/-- The kinds that the older `_delete` is for. -/
def Kind.older : Kind → Bool
  | .opportunity | .allocation | .gateSet => true
  | .template | .trade => false

/-- What the older `_delete` raises: an object in use, or the driver's error. -/
inductive DeleteRaised where
  | ruleInUse (reason : String)
  | integrity (c : Constraint)
  deriving DecidableEq

/-- `_delete`: whether the row was there. -/
def delete : Except DeleteRaised (Bool × RuleDb) :=
  if db.tables.has k id = false then .ok (false, db)
  else match inUse collate db.tables id k with
    | some reason => .error (.ruleInUse reason)
    | none =>
        match (db.tables.remove k id).check with
        | .error c => .error (.integrity c)
        | .ok after => .ok (true, after)

end Deletes

/-! ## What keeps an object -/

/-- Something refers to the object that a deletion would leave behind, or the daemon runs it. -/
def Used (t : RuleTables) (id : ℤ) : Kind → Prop
  | .opportunity => ∃ x ∈ t.trades.rows, x.opportunityId = id
  | .allocation => t.settings.allocationId = some id
  | .gateSet => (∃ o ∈ t.opportunities.rows, o.gateId = some id) ∨
      (∃ a ∈ t.allocations.rows, a.gateId = some id) ∨ t.settings.gateId = some id
  | .template => ∃ s ∈ t.structures.rows, s.templateId = some id
  | .trade => (∃ x ∈ t.fills.rows, x.tradeId = id) ∨ (∃ p ∈ t.plans.rows, p.tradeId = some id) ∨
      ∃ r ∈ t.reviews.rows, r.tradeId = id

section Used

variable {collate : String → String → Bool} {t : RuleTables} {id : ℤ}

theorem length_filter_ne_zero {α : Type} {p : α → Bool} {l : List α} :
    (l.filter p).length ≠ 0 ↔ ∃ x ∈ l, p x = true := by
  rw [ne_eq, List.length_eq_zero_iff, List.filter_eq_nil_iff]
  push Not
  rfl

theorem checkOpportunity_isSome_iff :
    (checkOpportunity t id).isSome = true ↔ Used t id .opportunity := by
  unfold checkOpportunity Used
  dsimp only
  have hcount : (t.trades.rows.filter fun x => decide (x.opportunityId = id)).length ≠ 0 ↔
      ∃ x ∈ t.trades.rows, x.opportunityId = id := by
    simp only [length_filter_ne_zero, decide_eq_true_eq]
  split
  · rename_i h
    exact iff_of_true rfl (hcount.1 h)
  · rename_i h
    exact iff_of_false Bool.false_ne_true fun hused => h (hcount.2 hused)

theorem checkAllocation_isSome_iff :
    (checkAllocation t id).isSome = true ↔ Used t id .allocation := by
  unfold checkAllocation Used
  split
  · exact iff_of_true rfl ‹_›
  · exact iff_of_false Bool.false_ne_true ‹_›

theorem checkGateSafety_isSome_iff :
    (checkGateSafety t id).isSome = true ↔ Used t id .gateSet := by
  have hopps : (t.opportunities.rows.filter fun o => decide (o.gateId = some id)).length ≠ 0 ↔
      ∃ o ∈ t.opportunities.rows, o.gateId = some id := by
    simp only [length_filter_ne_zero, decide_eq_true_eq]
  have hallocs : (t.allocations.rows.filter fun a => decide (a.gateId = some id)).length ≠ 0 ↔
      ∃ a ∈ t.allocations.rows, a.gateId = some id := by
    simp only [length_filter_ne_zero, decide_eq_true_eq]
  unfold checkGateSafety Used
  dsimp only
  rw [← hopps, ← hallocs]
  generalize (t.opportunities.rows.filter fun o => decide (o.gateId = some id)).length = opps
  generalize (t.allocations.rows.filter fun a => decide (a.gateId = some id)).length = allocs
  split
  · rename_i h
    exact iff_of_true rfl (.inr (.inr h.2.2))
  · rename_i hsettings
    split
    · rename_i h
      exact iff_of_true rfl (h.imp_right .inl)
    · rename_i h
      push Not at h
      refine iff_of_false Bool.false_ne_true ?_
      rintro (h' | h' | h')
      · exact h' h.1
      · exact h' h.2
      · exact hsettings ⟨h.1, h.2, h'⟩

theorem checkTemplate_isSome_iff :
    (checkTemplate collate t id).isSome = true ↔ Used t id .template := by
  have husers : templateUsers collate t id ≠ [] ↔
      ∃ s ∈ t.structures.rows, s.templateId = some id := by
    unfold templateUsers
    rw [ne_eq, ← List.length_eq_zero_iff, List.length_mergeSort, ← ne_eq, length_filter_ne_zero]
    simp only [decide_eq_true_eq]
  unfold checkTemplate Used
  dsimp only
  split
  · rename_i h
    exact iff_of_true rfl (husers.1 h)
  · rename_i h
    exact iff_of_false Bool.false_ne_true fun hused => h (husers.2 hused)

theorem checkTrade_isSome_iff : (checkTrade t id).isSome = true ↔ Used t id .trade := by
  have hsplit : ((t.fills.rows.filter fun x => decide (x.tradeId = id)).filter
      fun x => x.splitQuantity.isSome).length ≠ 0 ↔
      ∃ x ∈ t.fills.rows, x.tradeId = id ∧ x.splitQuantity.isSome = true := by
    simp only [List.filter_filter, length_filter_ne_zero, Bool.and_eq_true, decide_eq_true_eq,
      and_comm]
  have hdirect : ((t.fills.rows.filter fun x => decide (x.tradeId = id)).filter
      fun x => x.splitQuantity.isNone).length ≠ 0 ↔
      ∃ x ∈ t.fills.rows, x.tradeId = id ∧ x.splitQuantity.isNone = true := by
    simp only [List.filter_filter, length_filter_ne_zero, Bool.and_eq_true, decide_eq_true_eq,
      and_comm]
  have hplans : (t.plans.rows.filter fun p => decide (p.tradeId = some id)).length ≠ 0 ↔
      ∃ p ∈ t.plans.rows, p.tradeId = some id := by
    simp only [length_filter_ne_zero, decide_eq_true_eq]
  have hreviews : (t.reviews.rows.filter fun r => decide (r.tradeId = id)).length ≠ 0 ↔
      ∃ r ∈ t.reviews.rows, r.tradeId = id := by
    simp only [length_filter_ne_zero, decide_eq_true_eq]
  unfold checkTrade Used
  dsimp only
  split
  · rename_i h
    obtain ⟨x, hx, hid, -⟩ := hsplit.1 h
    exact iff_of_true rfl (.inl ⟨x, hx, hid⟩)
  · rename_i hnoSplit
    split
    · rename_i h
      obtain ⟨x, hx, hid, -⟩ := hdirect.1 h
      exact iff_of_true rfl (.inl ⟨x, hx, hid⟩)
    · rename_i hnoDirect
      split
      · rename_i h
        exact iff_of_true rfl (.inr (h.imp hplans.1 hreviews.1))
      · rename_i hheld
        push Not at hheld
        refine iff_of_false Bool.false_ne_true ?_
        rintro (⟨x, hx, hid⟩ | hused | hused)
        · -- a fill of the trade is a split or a whole one
          cases hquantity : x.splitQuantity with
          | none => exact hnoDirect (hdirect.2 ⟨x, hx, hid, by rw [hquantity]; rfl⟩)
          | some q => exact hnoSplit (hsplit.2 ⟨x, hx, hid, by rw [hquantity]; rfl⟩)
        · exact hplans.2 hused hheld.1
        · exact hreviews.2 hused hheld.2

/-- The question finds whatever keeps the object. -/
theorem inUse_isSome_iff {k : Kind} :
    (inUse collate t id k).isSome = true ↔ Used t id k := by
  cases k with
  | opportunity => exact checkOpportunity_isSome_iff
  | allocation => exact checkAllocation_isSome_iff
  | gateSet => exact checkGateSafety_isSome_iff
  | template => exact checkTemplate_isSome_iff
  | trade => exact checkTrade_isSome_iff

end Used

end Strategy
