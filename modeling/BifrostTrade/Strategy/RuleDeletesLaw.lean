import BifrostTrade.Strategy.RuleDeletes

/-!
# What a deletion takes

A deletion of an object that nothing uses meets every constraint of the schema, and changes the
object's own row, its memberships and the links of the plans that pointed at it, and nothing else.
-/

namespace Strategy

open Sql
open Portfolio.Plan (PlanRow PlanTable)

/-! ## Plans that forget an opportunity -/

/-- The row with its link cleared where it points at what goes. -/
def unlinked (c : Portfolio.Plan.Column) (gone : ℤ) (p : PlanRow) : PlanRow :=
  if p.fields c = .int gone then { p with fields := Function.update p.fields c .null } else p

section Unlinked

variable {c : Portfolio.Plan.Column} {gone : ℤ} {p : PlanRow}

theorem rows_unlinkPlans (plans : PlanTable) :
    (unlinkPlans c gone plans).rows = plans.rows.map (unlinked c gone) := rfl

theorem cellLink_eq_some_iff {x : Portfolio.Plan.Cell} {n : ℤ} :
    cellLink x = some n ↔ x = .int n := by
  cases x <;> simp [cellLink]

theorem planLink_unlinked : planLink c (unlinked c gone p) = forget gone (planLink c p) := by
  unfold unlinked
  split
  · rename_i h
    show cellLink (Function.update p.fields c .null c) = forget gone (cellLink (p.fields c))
    rw [h, Function.update_self]
    exact (forget_self gone).symm
  · rename_i h
    exact (forget_of_ne fun heq => h (cellLink_eq_some_iff.1 heq)).symm

theorem planLink_unlinked_of_ne {c' : Portfolio.Plan.Column} (h : c' ≠ c) :
    planLink c' (unlinked c gone p) = planLink c' p := by
  unfold unlinked
  split
  · exact congrArg cellLink (Function.update_of_ne h _ _)
  · rfl

theorem tradeId_unlinked : (unlinked c gone p).tradeId = p.tradeId := by
  unfold unlinked
  split <;> rfl

theorem parent_unlinked :
    (unlinked c gone p).parentStrategyPlanId = p.parentStrategyPlanId := by
  unfold unlinked
  split <;> rfl

theorem id_unlinked : (unlinked c gone p).strategyPlanId = p.strategyPlanId := by
  unfold unlinked
  split <;> rfl

theorem checks_unlinked (h : p.checks = true) :
    (unlinked .strategyOpportunityId gone p).checks = true := by
  unfold unlinked
  split
  · unfold PlanRow.checks at h ⊢
    simp [Portfolio.Plan.editableColumns, Function.update, Portfolio.Plan.Column.hasType] at h ⊢
    tauto
  · exact h

theorem keys_unlinkPlans (plans : PlanTable) : (unlinkPlans c gone plans).keys = plans.keys := by
  rw [Table.keys, Table.keys, rows_unlinkPlans, List.map_map]
  exact List.map_congr_left fun p _ => id_unlinked

end Unlinked

/-! ## The constraints -/

section Holds

variable {t : RuleTables} {id : ℤ} (h : ∀ c, t.Holds c)

include h

theorem holds_remove_opportunity (hfree : ¬ Used t id .opportunity) (c : Constraint) :
    (t.remove .opportunity id).Holds c := by
  have hkeys : ∀ k ∈ t.opportunities.keys, k ≠ id → k ∈ (t.opportunities.remove id).keys :=
    fun k hk hne => Table.mem_keys_remove.2 ⟨hk, hne⟩
  have hrows : ∀ o ∈ (t.opportunities.remove id).rows, o ∈ t.opportunities.rows :=
    fun o ho => (Table.mem_remove.1 ho).1
  have hplans : ∀ p' ∈ (unlinkPlans .strategyOpportunityId id t.plans).rows, ∃ p ∈ t.plans.rows,
      p' = unlinked .strategyOpportunityId id p := by
    intro p' hp'
    obtain ⟨p, hp, rfl⟩ := List.mem_map.1 (rows_unlinkPlans t.plans ▸ hp')
    exact ⟨p, hp, rfl⟩
  have hsame := h c
  cases c with
  | opportunityStructure => exact (h .opportunityStructure).subset hrows
  | opportunityGate => exact (h .opportunityGate).subset hrows
  | tradeOpportunity =>
    refine (h .tradeOpportunity).erase hkeys fun x hx heq => ?_
    exact hfree ⟨x, hx, Option.some.inj heq⟩
  | planStructure =>
    refine (h .planStructure).of_refs fun p' hp' k hk => ?_
    obtain ⟨p, hp, rfl⟩ := hplans p' hp'
    have hother : Portfolio.Plan.Column.strategyStructureId ≠ .strategyOpportunityId := by decide
    exact ⟨p, hp, planLink_unlinked_of_ne hother ▸ hk⟩
  | planOpportunity =>
    refine (h .planOpportunity).forget hkeys fun p' hp' => ?_
    obtain ⟨p, hp, rfl⟩ := hplans p' hp'
    exact ⟨p, hp, planLink_unlinked⟩
  | planTrade =>
    refine (h .planTrade).of_refs fun p' hp' k hk => ?_
    obtain ⟨p, hp, rfl⟩ := hplans p' hp'
    exact ⟨p, hp, tradeId_unlinked ▸ hk⟩
  | planParent =>
    have hparents : Resolves (unlinkPlans .strategyOpportunityId id t.plans).rows
        PlanRow.parentStrategyPlanId t.plans.keys := by
      refine (h .planParent).of_refs fun p' hp' k hk => ?_
      obtain ⟨p, hp, rfl⟩ := hplans p' hp'
      exact ⟨p, hp, parent_unlinked ▸ hk⟩
    exact hparents.mono fun k hk => (keys_unlinkPlans t.plans).symm ▸ hk
  | planChecks =>
    intro p' hp'
    obtain ⟨p, hp, rfl⟩ := hplans p' hp'
    exact checks_unlinked (h .planChecks p hp)
  | membershipAllocation =>
    exact (h .membershipAllocation).subset fun x hx => (Table.mem_delete.1 hx).1
  | membershipOpportunity =>
    refine ((h .membershipOpportunity).subset fun x hx => (Table.mem_delete.1 hx).1).erase hkeys
      fun x hx heq => ?_
    exact of_decide_eq_false (Table.mem_delete.1 hx).2 (Option.some.inj heq)
  | _ => exact hsame

/-- The settings would only forget the allocation. -/
theorem holds_remove_allocation (c : Constraint) :
    (t.remove .allocation id).Holds c := by
  have hkeys : ∀ k ∈ t.allocations.keys, k ≠ id → k ∈ (t.allocations.remove id).keys :=
    fun k hk hne => Table.mem_keys_remove.2 ⟨hk, hne⟩
  have hsame := h c
  cases c with
  | allocationGate =>
    exact (h .allocationGate).subset fun a ha => (Table.mem_remove.1 ha).1
  | membershipAllocation =>
    refine ((h .membershipAllocation).subset fun x hx => (Table.mem_delete.1 hx).1).erase hkeys
      fun x hx heq => ?_
    exact of_decide_eq_false (Table.mem_delete.1 hx).2 (Option.some.inj heq)
  | membershipOpportunity =>
    exact (h .membershipOpportunity).subset fun x hx => (Table.mem_delete.1 hx).1
  | activeStructure =>
    refine (h .activeStructure).of_refs fun s hs k hk => ⟨t.settings, List.mem_singleton_self _, ?_⟩
    obtain rfl := List.mem_singleton.1 hs
    exact hk
  | activeGate =>
    refine (h .activeGate).of_refs fun s hs k hk => ⟨t.settings, List.mem_singleton_self _, ?_⟩
    obtain rfl := List.mem_singleton.1 hs
    exact hk
  | activeAllocation =>
    refine (h .activeAllocation).forget hkeys fun s hs =>
      ⟨t.settings, List.mem_singleton_self _, ?_⟩
    obtain rfl := List.mem_singleton.1 hs
    rfl
  | _ => exact hsame

theorem holds_remove_gateSet (hfree : ¬ Used t id .gateSet) (c : Constraint) :
    (t.remove .gateSet id).Holds c := by
  have hkeys : ∀ k ∈ t.gates.keys, k ≠ id → k ∈ (t.gates.remove id).keys :=
    fun k hk hne => Table.mem_keys_remove.2 ⟨hk, hne⟩
  have hsame := h c
  cases c with
  | opportunityGate =>
    exact (h .opportunityGate).erase hkeys fun o ho heq => hfree (.inl ⟨o, ho, heq⟩)
  | allocationGate =>
    exact (h .allocationGate).erase hkeys fun a ha heq => hfree (.inr (.inl ⟨a, ha, heq⟩))
  | activeStructure =>
    refine (h .activeStructure).of_refs fun s hs k hk => ⟨t.settings, List.mem_singleton_self _, ?_⟩
    obtain rfl := List.mem_singleton.1 hs
    exact hk
  | activeGate =>
    refine (h .activeGate).forget hkeys fun s hs => ⟨t.settings, List.mem_singleton_self _, ?_⟩
    obtain rfl := List.mem_singleton.1 hs
    rfl
  | activeAllocation =>
    refine (h .activeAllocation).of_refs fun s hs k hk =>
      ⟨t.settings, List.mem_singleton_self _, ?_⟩
    obtain rfl := List.mem_singleton.1 hs
    exact hk
  | _ => exact hsame

theorem holds_remove_template (hfree : ¬ Used t id .template) (c : Constraint) :
    (t.remove .template id).Holds c := by
  have hsame := h c
  cases c with
  | structureTemplate =>
    exact (h .structureTemplate).erase (fun k hk hne => Table.mem_keys_remove.2 ⟨hk, hne⟩)
      fun s hs heq => hfree ⟨s, hs, heq⟩
  | _ => exact hsame

theorem holds_remove_trade (hfree : ¬ Used t id .trade) (c : Constraint) :
    (t.remove .trade id).Holds c := by
  have hkeys : ∀ k ∈ t.trades.keys, k ≠ id → k ∈ (t.trades.remove id).keys :=
    fun k hk hne => Table.mem_keys_remove.2 ⟨hk, hne⟩
  have hsame := h c
  cases c with
  | tradeOpportunity =>
    exact (h .tradeOpportunity).subset fun x hx => (Table.mem_remove.1 hx).1
  | fillTrade =>
    intro x hx k hk
    obtain rfl := Option.some.inj hk
    obtain ⟨trade, htrade, heq⟩ := List.mem_map.1 (h .fillTrade x hx _ rfl)
    refine List.mem_map.2 ⟨trade, Table.mem_remove.2 ⟨htrade, fun hid => ?_⟩, heq⟩
    exact hfree (.inl ⟨x, hx, (congrArg Prod.fst heq).symm.trans hid⟩)
  | planTrade =>
    exact (h .planTrade).erase hkeys fun p hp heq => hfree (.inr (.inl ⟨p, hp, heq⟩))
  | reviewTrade =>
    exact (h .reviewTrade).erase hkeys fun r hr heq =>
      hfree (.inr (.inr ⟨r, hr, Option.some.inj heq⟩))
  | _ => exact hsame

/-- What nothing uses goes without breaking a constraint. -/
theorem holds_remove {k : Kind} (hfree : ¬ Used t id k) (c : Constraint) :
    (t.remove k id).Holds c := by
  cases k with
  | opportunity => exact holds_remove_opportunity h hfree c
  | allocation => exact holds_remove_allocation h c
  | gateSet => exact holds_remove_gateSet h hfree c
  | template => exact holds_remove_template h hfree c
  | trade => exact holds_remove_trade h hfree c

end Holds

/-! ## The law -/

/-- A table after a deletion, by the rows under its keys. -/
def Without {ρ : Type} {key : ρ → ℤ} (goes : Prop) [Decidable goes] (id : ℤ)
    (before after : Table key) : Prop :=
  ∀ id', after.get id' = if goes ∧ id' = id then none else before.get id'

/-- What a deletion changes: the row, its memberships, and the links of plans to an opportunity. -/
structure Removed (t t' : RuleTables) (k : Kind) (id : ℤ) : Prop where
  opportunities : Without (k = .opportunity) id t.opportunities t'.opportunities
  allocations : Without (k = .allocation) id t.allocations t'.allocations
  gates : Without (k = .gateSet) id t.gates t'.gates
  templates : Without (k = .template) id t.templates t'.templates
  trades : Without (k = .trade) id t.trades t'.trades
  memberships : ∀ x, x ∈ t'.memberships.rows ↔ x ∈ t.memberships.rows ∧
    ¬ (k = .opportunity ∧ x.opportunityId = id ∨ k = .allocation ∧ x.allocationId = id)
  plans : t'.plans.rows =
    t.plans.rows.map fun p => if k = .opportunity then unlinked .strategyOpportunityId id p else p
  structures : t'.structures = t.structures
  /-- The daemon keeps what it runs. -/
  settings : t'.settings = t.settings
  fills : t'.fills = t.fills
  reviews : t'.reviews = t.reviews

section Removed

variable {t : RuleTables} {k : Kind} {id : ℤ}

theorem without_of_not {ρ : Type} {key : ρ → ℤ} {goes : Prop} [Decidable goes] (h : ¬ goes)
    (table : Table key) :
    Without goes id table table :=
  fun _ => (if_neg fun hgoes => h hgoes.1).symm

theorem without_remove {ρ : Type} {key : ρ → ℤ} {goes : Prop} [Decidable goes] (h : goes)
    (table : Table key) :
    Without goes id table (table.remove id) := by
  intro id'
  rw [Table.get_remove]
  exact if_congr (and_iff_right h).symm rfl rfl

theorem removed (hfree : ¬ Used t id k) : Removed t (t.remove k id) k id where
  opportunities := by
    cases k with
    | opportunity => exact without_remove rfl _
    | _ => exact without_of_not (by decide) _
  allocations := by
    cases k with
    | allocation => exact without_remove rfl _
    | _ => exact without_of_not (by decide) _
  gates := by
    cases k with
    | gateSet => exact without_remove rfl _
    | _ => exact without_of_not (by decide) _
  templates := by
    cases k with
    | template => exact without_remove rfl _
    | _ => exact without_of_not (by decide) _
  trades := by
    cases k with
    | trade => exact without_remove rfl _
    | _ => exact without_of_not (by decide) _
  memberships x := by
    cases k with
    | opportunity => simp [RuleTables.remove, Table.mem_delete]
    | allocation => simp [RuleTables.remove, Table.mem_delete]
    | _ => simp [RuleTables.remove]
  plans := by
    cases k with
    | opportunity => exact rows_unlinkPlans _
    | _ => exact (List.map_id _).symm
  structures := by
    cases k <;> rfl
  settings := by
    cases k with
    | allocation =>
      show { t.settings with allocationId := forget id t.settings.allocationId } = t.settings
      rw [forget_of_ne hfree]
    | gateSet =>
      show { t.settings with gateId := forget id t.settings.gateId } = t.settings
      rw [forget_of_ne fun heq => hfree (.inr (.inr heq))]
    | _ => rfl
  fills := by
    cases k <;> rfl
  reviews := by
    cases k <;> rfl

end Removed

/-- The rule of the deletions: refused exactly where something uses the object, never for another
reason, and otherwise the object is gone and nothing else. -/
structure DeleteLaw (detail : Detail) (collate : String → String → Bool) (db : RuleDb) (k : Kind)
    (id : ℤ) : Prop where
  notFound : (∃ reason, deleteStrict detail collate db k id = .error (.notFound reason)) ↔
    db.tables.has k id = false
  refused : (∃ reason, deleteStrict detail collate db k id = .error (.conflict reason)) ↔
    db.tables.has k id = true ∧ Used db.tables id k
  deleted : (∃ after, deleteStrict detail collate db k id = .ok ((k.key, id), after)) ↔
    db.tables.has k id = true ∧ ¬ Used db.tables id k
  removed : ∀ answer after, deleteStrict detail collate db k id = .ok (answer, after) →
    Removed db.tables after.tables k id
  /-- The older deletion does the same and never meets a constraint either. -/
  older : k.older = true → delete collate db k id =
    (match deleteStrict detail collate db k id with
    | .ok (_, after) => .ok (true, after)
    | .error (.conflict reason) => .error (.ruleInUse reason)
    | .error _ => .ok (false, db))

section Law

variable (detail : Detail) (collate : String → String → Bool) (db : RuleDb) (k : Kind) (id : ℤ)

/-- What a deletion does in each of its three cases. -/
theorem deleteStrict_cases :
    (db.tables.has k id = false ∧
      deleteStrict detail collate db k id =
        .error (.notFound ("No " ++ k.noun ++ " " ++ toString id ++ ".")) ∧
      delete collate db k id = .ok (false, db)) ∨
    (∃ reason, db.tables.has k id = true ∧ Used db.tables id k ∧
      deleteStrict detail collate db k id = .error (.conflict reason) ∧
      delete collate db k id = .error (.ruleInUse reason)) ∨
    (∃ after, db.tables.has k id = true ∧ ¬ Used db.tables id k ∧
      deleteStrict detail collate db k id = .ok ((k.key, id), after) ∧
      delete collate db k id = .ok (true, after) ∧ after.tables = db.tables.remove k id) := by
  by_cases hhas : db.tables.has k id = false
  · exact .inl ⟨hhas, by rw [deleteStrict, if_pos hhas], by rw [delete, if_pos hhas]⟩
  · have hthere : db.tables.has k id = true := Bool.not_eq_false _ ▸ hhas
    cases huse : inUse collate db.tables id k with
    | some reason =>
      have hused : Used db.tables id k := inUse_isSome_iff.1 (by rw [huse]; rfl)
      refine .inr (.inl ⟨reason, hthere, hused, ?_, ?_⟩)
      · rw [deleteStrict, if_neg hhas, huse]
      · rw [delete, if_neg hhas, huse]
    | none =>
      have hfree : ¬ Used db.tables id k := by
        rw [← inUse_isSome_iff, huse]
        exact Bool.false_ne_true
      have hcheck := RuleTables.check_of_holds (holds_remove db.holds hfree)
      refine .inr (.inr ⟨⟨_, holds_remove db.holds hfree⟩, hthere, hfree, ?_, ?_, rfl⟩)
      · rw [deleteStrict, if_neg hhas, huse]
        dsimp only
        rw [hcheck]
      · rw [delete, if_neg hhas, huse]
        dsimp only
        rw [hcheck]

/-- **A deletion asks for everything that could keep the object**: it is refused exactly where
something uses it, never meets a constraint of the database, and takes nothing else with it. -/
theorem deleteStrict_law : DeleteLaw detail collate db k id := by
  rcases deleteStrict_cases detail collate db k id with
    ⟨hhas, hstrict, hdelete⟩ | ⟨reason, hhas, hused, hstrict, hdelete⟩ |
      ⟨after, hhas, hfree, hstrict, hdelete, htables⟩
  · constructor <;> simp [hstrict, hdelete, hhas]
  · constructor <;> simp [hstrict, hdelete, hhas, hused]
  · refine ⟨by simp [hstrict, hhas], by simp [hstrict, hfree], by simp [hstrict, hhas, hfree], ?_,
      fun _ => by simp [hstrict, hdelete]⟩
    intro answer after' heq
    obtain ⟨-, rfl⟩ := Prod.mk.inj (Except.ok.inj (hstrict.symm.trans heq))
    rw [htables]
    exact removed hfree

end Law

end Strategy
