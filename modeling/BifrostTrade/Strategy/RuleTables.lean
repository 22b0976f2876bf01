import BifrostTrade.Lib.References
import BifrostTrade.Persistence.ExecutionTables
import BifrostTrade.Portfolio.GateSafety
import BifrostTrade.Portfolio.StrategyPlan

/-!
# The tables of the rules

Templates, structures, gate sets, opportunities, allocations and what the daemon's settings point
at, with the trades, fills, plans and reviews that refer to them.  A statement goes through when the
tables after it meet every constraint of the schema; a deletion first does to the rows that refer to
what goes what the foreign key says.
-/

namespace Strategy

open Py Sql
open Persistence (TradeExecutionRow)
open Portfolio.Plan (Instant PlanRow PlanTable)
open Portfolio.GateSafety (Gates)

/-! ## Rows -/

/-- A template, as far as others refer to it. -/
structure TemplateRow where
  id : ℤ
  deriving DecidableEq

/-- A structure, as far as the writers of rules read it. -/
structure StructureRow where
  id : ℤ
  name : String
  templateId : Option ℤ
  isActive : Bool
  deriving DecidableEq

/-- `SCOPE_TYPES`, and the check of the column. -/
inductive ScopeType where
  | watchlistStk
  | explicitSymbols
  deriving DecidableEq

/-- The text of a scope type in its column. -/
def ScopeType.text : ScopeType → String
  | .watchlistStk => "watchlist_stk"
  | .explicitSymbols => "explicit_symbols"

/-- An object of `entry_conditions_json`. -/
structure EntryCondition where
  conditionType : String
  valueText : Option String
  valueNumeric : Option Double
  sortOrder : ℕ
  deriving DecidableEq

/-- A row of the opportunities. -/
structure Opportunity where
  id : ℤ
  name : String
  structureId : ℤ
  gateId : Option ℤ
  scopeType : Option ScopeType
  isActive : Bool
  symbols : List String
  entryConditions : List EntryCondition
  deriving DecidableEq

/-- A row of the allocations. -/
structure Allocation where
  id : ℤ
  name : String
  gateId : Option ℤ
  maxPositions : Option ℤ
  maxBpPct : Option Double
  isActive : Bool
  deriving DecidableEq

/-- A row of `strategy_allocation_opportunity`. -/
structure Membership where
  allocationId : ℤ
  opportunityId : ℤ
  sortOrder : ℕ
  deriving DecidableEq

/-- The primary key of a membership. -/
def Membership.key (x : Membership) : ℤ × ℤ := (x.allocationId, x.opportunityId)

/-- What the settings row points at: what the daemon loads on its next start. -/
structure ActiveRefs where
  structureId : Option ℤ
  gateId : Option ℤ
  allocationId : Option ℤ
  deriving DecidableEq

/-- A row of the trades. -/
structure Trade where
  id : ℤ
  opportunityId : ℤ
  accountId : String
  openedAt : Instant
  label : Option String
  createdAt : Instant
  deriving DecidableEq

/-- A row of the reviews. -/
structure Review where
  id : ℤ
  tradeId : ℤ
  tagsAdded : List String
  tagsDropped : List String
  reviewedAt : Option Instant
  createdAt : Instant
  updatedAt : Instant
  deriving DecidableEq

/-! ## The tables -/

/-- The tables of the rules and of what refers to them. -/
structure RuleTables where
  templates : Table TemplateRow.id
  structures : Table StructureRow.id
  gates : Gates
  opportunities : Table Opportunity.id
  allocations : Table Allocation.id
  memberships : Table Membership.key
  settings : ActiveRefs
  trades : Table Trade.id
  fills : Store TradeExecutionRow.clash
  plans : PlanTable
  /-- One review a trade. -/
  reviews : Table Review.tradeId

/-- The row a cell names. -/
def cellLink : Portfolio.Plan.Cell → Option ℤ
  | .int n => some n
  | _ => none

/-- The row a plan's column names. -/
def planLink (c : Portfolio.Plan.Column) (p : PlanRow) : Option ℤ := cellLink (p.fields c)

/-- The settings row as a table of one row. -/
def RuleTables.settingsRows (t : RuleTables) : List ActiveRefs := [t.settings]

/-- A trade as a fill names it. -/
def RuleTables.tradeAccounts (t : RuleTables) : List (ℤ × String) :=
  t.trades.rows.map fun x => (x.id, x.accountId)

/-- The foreign keys and the checks of the schema. -/
inductive Constraint where
  | structureTemplate
  | opportunityStructure
  | opportunityGate
  | tradeOpportunity
  | fillTrade
  | fillQuantity
  | planStructure
  | planOpportunity
  | planTrade
  | planParent
  | planChecks
  | reviewTrade
  | allocationGate
  | membershipAllocation
  | membershipOpportunity
  | activeStructure
  | activeGate
  | activeAllocation
  deriving DecidableEq

namespace Constraint

/-- In the order in which the schema makes them. -/
def all : List Constraint :=
  [structureTemplate, opportunityStructure, opportunityGate, tradeOpportunity, fillTrade,
    fillQuantity, planStructure, planOpportunity, planTrade, planParent, planChecks, reviewTrade,
    allocationGate, membershipAllocation, membershipOpportunity, activeStructure, activeGate,
    activeAllocation]

theorem mem_all (c : Constraint) : c ∈ all := by
  cases c <;> decide

end Constraint

/-- The tables meet the constraint. -/
def RuleTables.Holds (t : RuleTables) : Constraint → Prop
  | .structureTemplate => Resolves t.structures.rows StructureRow.templateId t.templates.keys
  | .opportunityStructure =>
      Resolves t.opportunities.rows (fun o => some o.structureId) t.structures.keys
  | .opportunityGate => Resolves t.opportunities.rows Opportunity.gateId t.gates.keys
  | .tradeOpportunity => Resolves t.trades.rows (fun x => some x.opportunityId) t.opportunities.keys
  | .fillTrade => Resolves t.fills.rows (fun x => some (x.tradeId, x.accountId)) t.tradeAccounts
  | .fillQuantity => ∀ x ∈ t.fills.rows, x.splitQuantity ≠ some 0
  | .planStructure => Resolves t.plans.rows (planLink .strategyStructureId) t.structures.keys
  | .planOpportunity => Resolves t.plans.rows (planLink .strategyOpportunityId) t.opportunities.keys
  | .planTrade => Resolves t.plans.rows PlanRow.tradeId t.trades.keys
  | .planParent => Resolves t.plans.rows PlanRow.parentStrategyPlanId t.plans.keys
  | .planChecks => ∀ p ∈ t.plans.rows, p.checks = true
  | .reviewTrade => Resolves t.reviews.rows (fun r => some r.tradeId) t.trades.keys
  | .allocationGate => Resolves t.allocations.rows Allocation.gateId t.gates.keys
  | .membershipAllocation =>
      Resolves t.memberships.rows (fun x => some x.allocationId) t.allocations.keys
  | .membershipOpportunity =>
      Resolves t.memberships.rows (fun x => some x.opportunityId) t.opportunities.keys
  | .activeStructure => Resolves t.settingsRows ActiveRefs.structureId t.structures.keys
  | .activeGate => Resolves t.settingsRows ActiveRefs.gateId t.gates.keys
  | .activeAllocation => Resolves t.settingsRows ActiveRefs.allocationId t.allocations.keys

instance (t : RuleTables) (c : Constraint) : Decidable (t.Holds c) := by
  cases c <;> unfold RuleTables.Holds <;> infer_instance

/-- Tables that meet every constraint. -/
structure RuleDb where
  tables : RuleTables
  holds : ∀ c, tables.Holds c

/-- No rows at all. -/
def RuleTables.empty : RuleTables where
  templates := .empty
  structures := .empty
  gates := .empty
  opportunities := .empty
  allocations := .empty
  memberships := .empty
  settings := ⟨none, none, none⟩
  trades := .empty
  fills := .empty
  plans := .empty
  reviews := .empty

/-- A statement goes through, or fails with the first constraint it would break. -/
def RuleTables.check (t : RuleTables) : Except Constraint RuleDb :=
  match h : Constraint.all.find? fun c => ¬ t.Holds c with
  | some c => .error c
  | none => .ok
      { tables := t
        holds := fun c => by
          have hc := List.find?_eq_none.1 h c c.mem_all
          simpa using hc }

theorem RuleTables.check_of_holds {t : RuleTables} (h : ∀ c, t.Holds c) :
    t.check = .ok ⟨t, h⟩ := by
  unfold check
  split
  · rename_i c hc
    exact absurd (h c) (by simpa using List.find?_some hc)
  · rfl

theorem RuleTables.check_ok {t : RuleTables} {db : RuleDb} (h : t.check = .ok db) :
    db.tables = t := by
  unfold check at h
  split at h
  · cases h
  · rw [← Except.ok.inj h]

/-! ## Deletions -/

/-- `ON DELETE SET NULL` of a plan's column. -/
def unlinkPlans (c : Portfolio.Plan.Column) (gone : ℤ) (plans : PlanTable) : PlanTable :=
  plans.update (fun p =>
    if p.fields c = .int gone then { p with fields := Function.update p.fields c .null } else p)
    fun p => by
      split
      · rfl
      · rfl

/-- The objects that are deleted. -/
inductive Kind where
  | opportunity
  | allocation
  | gateSet
  | template
  | trade
  deriving DecidableEq

/-- The row a deletion locks. -/
def RuleTables.has (t : RuleTables) : Kind → ℤ → Bool
  | .opportunity, id => t.opportunities.hasKey id
  | .allocation, id => t.allocations.hasKey id
  | .gateSet, id => t.gates.hasKey id
  | .template, id => t.templates.hasKey id
  | .trade, id => t.trades.hasKey id

/-- `DELETE` with what the foreign keys do: an opportunity and an allocation take their memberships
with them, a plan and the settings forget what they pointed at, every other reference is left to
the constraints. -/
def RuleTables.remove (t : RuleTables) : Kind → ℤ → RuleTables
  | .opportunity, id =>
      { t with
        opportunities := t.opportunities.remove id
        memberships := t.memberships.delete fun x => x.opportunityId = id
        plans := unlinkPlans .strategyOpportunityId id t.plans }
  | .allocation, id =>
      { t with
        allocations := t.allocations.remove id
        memberships := t.memberships.delete fun x => x.allocationId = id
        settings := { t.settings with allocationId := forget id t.settings.allocationId } }
  | .gateSet, id =>
      { t with
        gates := t.gates.remove id
        settings := { t.settings with gateId := forget id t.settings.gateId } }
  | .template, id => { t with templates := t.templates.remove id }
  | .trade, id => { t with trades := t.trades.remove id }

end Strategy
