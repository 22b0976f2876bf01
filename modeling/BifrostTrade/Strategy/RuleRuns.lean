import BifrostTrade.Lib.Latch
import BifrostTrade.Lib.Runs
import BifrostTrade.Strategy.RuleDeletesLaw
import BifrostTrade.Strategy.WriterEffects

/-!
# Runs of the rule writers

The writes of the rules one after another, whoever sends them; one that is refused changes nothing.
What other writers do to templates, structures, gate sets, fills and plans is anything that meets
the schema.
-/

namespace Strategy

open Py Sql Runs
open Persistence (TradeExecutionRow)
open Portfolio.Plan (Instant PlanTable)
open Portfolio.GateSafety (Gates)

/-- The tables that have writers of their own. -/
structure OtherTables where
  templates : Table TemplateRow.id
  structures : Table StructureRow.id
  gates : Gates
  fills : Store TradeExecutionRow.clash
  plans : PlanTable

/-- A call of a writer of rules, or a valid write of the tables that the writers refer to. -/
inductive RuleEvent where
  | createOpportunity (newId : ℤ) (body : OpportunityBody)
  | updateOpportunity (id : ℤ) (body : OpportunityBody)
  | patchOpportunity (id : ℤ) (fields : Json.Value)
  | createAllocation (newId : ℤ) (body : AllocationBody)
  | updateAllocation (id : ℤ) (body : AllocationBody)
  | patchAllocation (id : ℤ) (fields : Json.Value)
  | writeActive (values : ActiveRefs) (only : Option (List ActiveColumn))
  | deactivateStructure (id : ℤ)
  | createInstance (now : Instant) (newId : ℤ) (opportunityId accountId openedAt label : Json.Value)
  | patchInstance (id : ℤ) (fields : Json.Value)
  | saveReview (now : Instant) (newId tradeId : ℤ) (payload : ReviewPayload)
  | patchReview (now : Instant) (newId tradeId : ℤ) (fields : Json.Value)
  | delete (k : Kind) (hk : k.older = true) (id : ℤ)
  | deleteStrict (k : Kind) (id : ℤ)
  | others (x : OtherTables)

section Step

variable (detail : Detail) (collate : String → String → Bool)

/-- The tables after a write that went through. -/
def write (db : RuleDb) : RuleEvent → Option RuleDb
  | .createOpportunity newId body =>
      (createOpportunity db newId body).toOption.join.map Prod.snd
  | .updateOpportunity id body => (updateOpportunity db id body).toOption.join
  | .patchOpportunity id fields => (patchOpportunity detail db id fields).toOption.map Prod.snd
  | .createAllocation newId body => (createAllocation db newId body).toOption.join.map Prod.snd
  | .updateAllocation id body => (updateAllocation db id body).toOption.join
  | .patchAllocation id fields => (patchAllocation detail db id fields).toOption.map Prod.snd
  | .writeActive values only => (writeActiveStrategyAndGates db values only).toOption.join
  | .deactivateStructure id => deactivateStructure db id
  | .createInstance now newId opportunityId accountId openedAt label =>
      (createInstanceStrict detail db now newId opportunityId accountId openedAt
        label).toOption.map Prod.snd
  | .patchInstance id fields => (patchInstance detail db id fields).toOption.map Prod.snd
  | .saveReview now newId tradeId payload =>
      (saveReview db now newId tradeId payload).toOption.map Prod.snd
  | .patchReview now newId tradeId fields =>
      (patchReview detail db now newId tradeId fields).toOption.map Prod.snd
  | .delete k _ id => (delete collate db k id).toOption.map Prod.snd
  | .deleteStrict k id => (deleteStrict detail collate db k id).toOption.map Prod.snd
  | .others x => { db.tables with
      templates := x.templates, structures := x.structures, gates := x.gates
      fills := x.fills, plans := x.plans }.check.toOption

/-- A write that is refused changes nothing. -/
def step (db : RuleDb) (e : RuleEvent) : RuleDb := (write detail collate db e).getD db

end Step

/-! ## What a step changes -/

/-- The list that an event writes, with its allocation. -/
def RuleEvent.list : RuleEvent → Option (ℤ × List ℤ)
  | .createAllocation newId body => body.strategyOpportunityIds.join.map fun ids => (newId, ids)
  | .updateAllocation id body => body.newList.map fun ids => (id, ids)
  | .patchAllocation id fields => (patchedList fields).map fun ids => (id, ids)
  | _ => none

/-- What `reviewed` says at its time. -/
def signal (now : Instant) (reviewed : Bool) : Latch.Signal Instant :=
  if reviewed then .set now else .clear

/-- The stamp that an event sets or clears, with its trade. -/
def RuleEvent.verdict : RuleEvent → Option (ℤ × Latch.Signal Instant)
  | .saveReview now _ id payload => payload.reviewed.map fun b => (id, signal now b)
  | .patchReview now _ id fields => (patchedReviewed fields).map fun b => (id, signal now b)
  | _ => none

/-- The events that say what the daemon runs. -/
def RuleEvent.setsActive : RuleEvent → Bool
  | .writeActive .. | .deactivateStructure _ => true
  | _ => false

/-- What a write that goes through does to the tables. -/
inductive Effect (db after : RuleDb) (e : RuleEvent) : Prop where
  | opportunities (h : OpportunitiesWritten db after) (hlist : e.list = none)
      (hverdict : e.verdict = none)
  | allocations (a : ℤ) (ids : Option (List ℤ)) (h : AllocationsWritten db after a ids)
      (hlist : e.list = ids.map fun ids => (a, ids)) (hverdict : e.verdict = none)
  | trades (h : TradesWritten db after) (hlist : e.list = none) (hverdict : e.verdict = none)
  | review (now : Instant) (newId id : ℤ) (c : ReviewChanges)
      (h : ReviewWritten db after now newId id c) (hlist : e.list = none)
      (hverdict : e.verdict = c.reviewed.map fun b => (id, signal now b))
  | active (h : ∃ x y, after.tables = { db.tables with structures := x, settings := y })
      (hsets : e.setsActive = true) (hlist : e.list = none) (hverdict : e.verdict = none)
  | removed (k : Kind) (id : ℤ) (h : after.tables = db.tables.remove k id)
      (hfree : ¬ Used db.tables id k) (hlist : e.list = none) (hverdict : e.verdict = none)
  | others (h : ∃ x : OtherTables, after.tables = { db.tables with
        templates := x.templates, structures := x.structures, gates := x.gates
        fills := x.fills, plans := x.plans })
      (hlist : e.list = none) (hverdict : e.verdict = none)
  | same (h : after = db) (hlist : e.list = none) (hverdict : e.verdict = none)

section Effect

variable {detail : Detail} {collate : String → String → Bool} {db after : RuleDb} {e : RuleEvent}

theorem toOption_map_eq_some {ε α β : Type} {r : Except ε (α × β)} {b : β}
    (h : r.toOption.map Prod.snd = some b) : ∃ a, r = .ok (a, b) := by
  obtain ⟨⟨a, b'⟩, hr, rfl⟩ := Option.map_eq_some_iff.1 h
  exact ⟨a, toOption_eq_some_iff.1 hr⟩

theorem toOption_join_eq_some {ε α : Type} {r : Except ε (Option α)} {a : α}
    (h : r.toOption.join = some a) : r = .ok (some a) :=
  toOption_eq_some_iff.1 (Option.join_eq_some_iff.1 h)

theorem effect_of_writeActive {values : ActiveRefs} {only : Option (List ActiveColumn)}
    (h : writeActiveStrategyAndGates db values only = .ok (some after)) :
    Effect db after (.writeActive values only) := by
  unfold writeActiveStrategyAndGates at h
  dsimp only at h
  split at h
  · exact .same (Option.some.inj (Except.ok.inj h)).symm rfl rfl
  · obtain ⟨⟨⟩, -, h⟩ := bind_ok_iff.1 h
    simp only [pure, Except.pure, Except.ok.injEq, toOption_eq_some_iff] at h
    exact .active ⟨_, _, RuleTables.check_ok h⟩ rfl rfl rfl

theorem effect_of_deactivateStructure {id : ℤ} (h : deactivateStructure db id = some after) :
    Effect db after (.deactivateStructure id) := by
  unfold deactivateStructure at h
  split at h
  · cases h
  · exact .active ⟨_, _, RuleTables.check_ok (toOption_eq_some_iff.1 h)⟩ rfl rfl rfl

theorem effect_of_write (h : write detail collate db e = some after) : Effect db after e := by
  cases e with
  | createOpportunity newId body =>
    obtain ⟨⟨id, after'⟩, hr, rfl⟩ := Option.map_eq_some_iff.1 h
    exact .opportunities (createOpportunity_written (toOption_join_eq_some hr)) rfl rfl
  | updateOpportunity id body =>
    exact .opportunities (updateOpportunity_written (toOption_join_eq_some h)) rfl rfl
  | patchOpportunity id fields =>
    obtain ⟨row, hr⟩ := toOption_map_eq_some h
    exact .opportunities (patchOpportunity_written hr) rfl rfl
  | createAllocation newId body =>
    obtain ⟨⟨id, after'⟩, hr, rfl⟩ := Option.map_eq_some_iff.1 h
    exact .allocations newId _ (createAllocation_written (toOption_join_eq_some hr)) rfl rfl
  | updateAllocation id body =>
    exact .allocations id _ (updateAllocation_written (toOption_join_eq_some h)) rfl rfl
  | patchAllocation id fields =>
    obtain ⟨row, hr⟩ := toOption_map_eq_some h
    exact .allocations id _ (patchAllocation_written hr) rfl rfl
  | writeActive values only => exact effect_of_writeActive (toOption_join_eq_some h)
  | deactivateStructure id => exact effect_of_deactivateStructure h
  | createInstance now newId opportunityId accountId openedAt label =>
    obtain ⟨row, hr⟩ := toOption_map_eq_some h
    exact .trades (createInstanceStrict_written hr) rfl rfl
  | patchInstance id fields =>
    obtain ⟨row, hr⟩ := toOption_map_eq_some h
    exact .trades (patchInstance_written hr) rfl rfl
  | saveReview now newId id payload =>
    obtain ⟨row, hr⟩ := toOption_map_eq_some h
    obtain ⟨c, hc, hwritten⟩ := saveReview_written hr
    exact .review now newId id c hwritten rfl (by rw [hc]; rfl)
  | patchReview now newId id fields =>
    obtain ⟨row, hr⟩ := toOption_map_eq_some h
    obtain ⟨c, hc, hwritten⟩ := patchReview_written hr
    exact .review now newId id c hwritten rfl (by rw [hc]; rfl)
  | delete k hk id =>
    obtain ⟨gone, hr⟩ := toOption_map_eq_some h
    rcases deleteStrict_cases detail collate db k id with
      ⟨-, -, hdelete⟩ | ⟨reason, -, -, -, hdelete⟩ | ⟨after', -, hfree, -, hdelete, htables⟩
    · rw [hdelete] at hr
      exact .same (Prod.mk.inj (Except.ok.inj hr)).2.symm rfl rfl
    · rw [hdelete] at hr
      cases hr
    · rw [hdelete] at hr
      obtain ⟨-, rfl⟩ := Prod.mk.inj (Except.ok.inj hr)
      exact .removed k id htables hfree rfl rfl
  | deleteStrict k id =>
    obtain ⟨answer, hr⟩ := toOption_map_eq_some h
    rcases deleteStrict_cases detail collate db k id with
      ⟨-, hstrict, -⟩ | ⟨reason, -, -, hstrict, -⟩ | ⟨after', -, hfree, hstrict, -, htables⟩
    · rw [hstrict] at hr
      cases hr
    · rw [hstrict] at hr
      cases hr
    · rw [hstrict] at hr
      obtain ⟨-, rfl⟩ := Prod.mk.inj (Except.ok.inj hr)
      exact .removed k id htables hfree rfl rfl
  | others x => exact .others ⟨x, RuleTables.check_ok (toOption_eq_some_iff.1 h)⟩ rfl rfl

/-- A step is a write that went through, or none. -/
theorem step_cases (detail : Detail) (collate : String → String → Bool) (db : RuleDb)
    (e : RuleEvent) :
    (write detail collate db e = none ∧ step detail collate db e = db) ∨
      ∃ after, write detail collate db e = some after ∧ step detail collate db e = after ∧
        Effect db after e := by
  cases hwrite : write detail collate db e with
  | none => exact .inl ⟨rfl, by rw [step, hwrite]; rfl⟩
  | some after => exact .inr ⟨after, rfl, by rw [step, hwrite]; rfl, effect_of_write hwrite⟩

end Effect

end Strategy
