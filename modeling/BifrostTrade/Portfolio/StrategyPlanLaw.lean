import BifrostTrade.Lib.Runs
import BifrostTrade.Portfolio.StrategyPlan
import Mathlib.Logic.Relation

/-!
# The life of a plan

The writers of trade plans, called in any order with any payloads: how the status of a plan moves,
what an intended and a filled plan have, and that nothing of a plan changes once it is no draft,
except the expiry of an intended one.
-/

namespace Portfolio.Plan

open Py

variable (accountOf : ℤ → String)

/-! ## What is claimed -/

/-- The table after some calls. -/
def plansAfter (evs : List (CallEnv × PlanCall)) : PlanTable :=
  Runs.run (planStep accountOf) .empty evs

/-- The moves between statuses. -/
inductive StatusMove : PlanStatus → PlanStatus → Prop
  | intend : StatusMove .draft .intended
  | fill : StatusMove .intended .filled
  | cancelDraft : StatusMove .draft .cancelled
  | cancelIntended : StatusMove .intended .cancelled

/-- No editable field differs but the expiry of an intended plan. -/
structure SameContent (p p' : PlanRow) : Prop where
  columns : ∀ c, p'.fields c = p.fields c ∨ c = .expiresAt ∧ p.status = .intended
  legs : p'.legs = p.legs
  source : p'.source = p.source

/-- What a stored plan has. -/
structure PlanOk (p : PlanRow) : Prop where
  legs : p.status = .intended ∨ p.status = .filled → p.legs ≠ []
  exit : p.status = .intended ∨ p.status = .filled →
    planExitIsWritten (p.fields .targetKind) (p.fields .stopKind) (p.fields .exitBy) = true
  linked : p.tradeId ≠ none ↔ p.status = .filled
  account : ∀ t ∈ p.tradeId, p.fields .accountId = .text (accountOf t)

/-- A call that raises, or answers that there is no such plan. -/
def Refused : Except PlanError (PlanTable × PlanAnswer) → Prop
  | .error _ => True
  | .ok (_, .done false) => True
  | .ok _ => False

/-- The law of the table after some calls, and of what further calls do to it. -/
structure PlanLaw (evs : List (CallEnv × PlanCall)) : Prop where
  plans : ∀ p ∈ (plansAfter accountOf evs).rows, PlanOk accountOf p
  moves : ∀ e, ∀ p ∈ (plansAfter accountOf evs).rows,
    ∀ p' ∈ (plansAfter accountOf (evs ++ [e])).rows, p'.strategyPlanId = p.strategyPlanId →
      (p'.status = p.status ∨ StatusMove p.status p'.status) ∧
        (p.status ≠ .draft → SameContent p p')
  created : ∀ e, ∀ p' ∈ (plansAfter accountOf (evs ++ [e])).rows,
    (∀ p ∈ (plansAfter accountOf evs).rows, p.strategyPlanId ≠ p'.strategyPlanId) →
      p'.status = .draft
  deleted : ∀ e, ∀ p ∈ (plansAfter accountOf evs).rows,
    (∀ p' ∈ (plansAfter accountOf (evs ++ [e])).rows, p'.strategyPlanId ≠ p.strategyPlanId) →
      p.status = .draft
  kept : ∀ later, ∀ p ∈ (plansAfter accountOf evs).rows, p.status ≠ .draft →
    ∃ p' ∈ (plansAfter accountOf (evs ++ later)).rows, p'.strategyPlanId = p.strategyPlanId ∧
      Relation.ReflTransGen StatusMove p.status p'.status ∧ SameContent p p'
  refused : ∀ env call, Refused (attempt accountOf (plansAfter accountOf evs) env call) →
    plansAfter accountOf (evs ++ [(env, call)]) = plansAfter accountOf evs

/-! ## What a call can do -/

/-- What a call makes of one plan. -/
inductive PlanMove (r : PlanRow) : PlanRow → Prop
  | edit (fields : Column → Cell) (legs : List PlanLegs.Leg) (source : List String) (now : Instant)
      (h : r.status = .draft) : PlanMove r { r with fields, legs, source, updatedAt := now }
  | extend (fields : Column → Cell) (now : Instant) (h : r.status = .intended)
      (hfields : ∀ c, c ≠ .expiresAt → fields c = r.fields c) :
      PlanMove r { r with fields, updatedAt := now }
  | intend (now : Instant) (h : r.status = .draft) (hlegs : r.legs ≠ [])
      (hexit : planExitIsWritten (r.fields .targetKind) (r.fields .stopKind) (r.fields .exitBy)) :
      PlanMove r { r with status := .intended, intendedAt := some now, updatedAt := now }
  | fill (tradeId : ℤ) (now : Instant) (h : r.status = .intended)
      (haccount : accountOf tradeId = (r.fields .accountId).str) :
      PlanMove r { r with status := .filled, tradeId := some tradeId, updatedAt := now }
  | cancel (now : Instant) (h : r.status = .draft ∨ r.status = .intended) :
      PlanMove r { r with status := .cancelled, cancelledAt := some now, updatedAt := now }

/-- What a call makes of the table. -/
inductive PlanChange (t : PlanTable) : PlanTable → Prop
  | same : PlanChange t t
  | create (r : PlanRow) (hfree : t.hasKey r.strategyPlanId = false) (hdraft : r.status = .draft)
      (hchecks : r.checks) : PlanChange t (t.insertOrIgnore r)
  | move (r new : PlanRow) (hr : r ∈ t.rows) (hmove : PlanMove accountOf r new)
      (hchecks : new.checks) : PlanChange t (replacePlan t new)
  | delete (r : PlanRow) (hr : r ∈ t.rows) (hdraft : r.status = .draft) {t' : PlanTable}
      (hrows : t'.rows = (t.rows.filter fun p => p.strategyPlanId ≠ r.strategyPlanId).map
        (PlanRow.unparent r.strategyPlanId)) : PlanChange t t'

variable {accountOf} {t t' : PlanTable} {env : CallEnv} {answer : PlanAnswer}

theorem checks_of_takes {r : PlanRow} (h : env.takes r = true) : r.checks = true := by
  simp only [CallEnv.takes, decide_eq_true_eq] at h
  exact h.1

theorem of_updatePlanRow {new : PlanRow} (h : orFailed (updatePlanRow env t new) = .ok t') :
    t' = replacePlan t new ∧ new.checks = true := by
  rw [orFailed_eq_ok, updatePlanRow] at h
  split_ifs at h with htakes
  exact ⟨(Option.some.inj h).symm, checks_of_takes htakes⟩

variable (accountOf t t' answer) in
/-- A call that goes through changes the table as a call can, and not when it answers that there is
no such plan. -/
def Changed : Prop := PlanChange accountOf t t' ∧ (answer = .done false → t' = t)

/-- A call that goes through without a statement. -/
theorem changed_of_ok {after : PlanAnswer}
    (h : (Except.ok (t, after) : Except PlanError (PlanTable × PlanAnswer)) = .ok (t', answer)) :
    Changed accountOf t t' answer := by
  obtain ⟨rfl, rfl⟩ := Prod.mk.inj (Except.ok.inj h)
  exact ⟨.same, fun _ => rfl⟩

/-- A statement on the stored plan that goes through. -/
theorem changed_update {id : ℤ} {r new : PlanRow} {after : PlanAnswer} (hr : t.get id = some r)
    (hmove : PlanMove accountOf r new) (hafter : after ≠ .done false)
    (h : (do
      let t ← orFailed (updatePlanRow env t new)
      .ok (t, after)) = Except.ok (t', answer)) : Changed accountOf t t' answer := by
  obtain ⟨t₁, ht₁, h⟩ := bind_eq_ok.1 h
  obtain ⟨rfl, hchecks⟩ := of_updatePlanRow ht₁
  obtain ⟨rfl, rfl⟩ := Prod.mk.inj (Except.ok.inj h)
  exact ⟨.move r new (Sql.Table.get_eq_some_iff.1 hr).1 hmove hchecks, fun h => absurd h hafter⟩

theorem of_createPlan {newId : ℤ} {payload : PlanPayload}
    (h : createPlan env newId t payload = .ok (t', answer)) :
    Changed accountOf t t' answer := by
  unfold createPlan at h
  obtain ⟨fields, -, h⟩ := bind_eq_ok.1 h
  obtain ⟨legs, -, h⟩ := bind_eq_ok.1 h
  obtain ⟨parent, -, h⟩ := bind_eq_ok.1 h
  obtain ⟨cells, -, h⟩ := bind_eq_ok.1 h
  obtain ⟨t₁, ht₁, h⟩ := bind_eq_ok.1 h
  obtain ⟨rfl, rfl⟩ := Prod.mk.inj (Except.ok.inj h)
  rw [orFailed_eq_ok, insertPlan] at ht₁
  split_ifs at ht₁ with hinsert
  obtain rfl := Option.some.inj ht₁
  exact ⟨.create _ hinsert.1 rfl (checks_of_takes hinsert.2), by simp⟩

theorem of_updatePlan {id : ℤ} {payload : PlanFields}
    (h : updatePlan env t id payload = .ok (t', answer)) :
    Changed accountOf t t' answer := by
  unfold updatePlan at h
  obtain ⟨fields, -, h⟩ := bind_eq_ok.1 h
  obtain ⟨legs, -, h⟩ := bind_eq_ok.1 h
  cases hr : t.get id with
  | none =>
    rw [hr] at h
    exact changed_of_ok h
  | some r =>
    rw [hr] at h
    dsimp only at h
    split_ifs at h with hstatus hsets
    · exact changed_of_ok h
    · obtain ⟨cells, -, h⟩ := bind_eq_ok.1 h
      exact changed_update hr (.edit _ _ _ _ (not_not.1 hstatus)) (by simp) h

theorem of_intendPlan {id : ℤ} (h : intendPlan env t id = .ok (t', answer)) :
    Changed accountOf t t' answer := by
  unfold intendPlan at h
  cases hr : t.get id with
  | none =>
    rw [hr] at h
    exact changed_of_ok h
  | some r =>
    rw [hr] at h
    dsimp only at h
    split_ifs at h with hstatus hlegs hexit
    exact changed_update hr (.intend _ (not_not.1 hstatus) hlegs hexit) (by simp) h

theorem of_linkFill {id tradeId : ℤ} {tradeExists : Bool}
    (h : linkFill env t id tradeId (if tradeExists then some (accountOf tradeId) else none) =
      .ok (t', answer)) :
    Changed accountOf t t' answer := by
  unfold linkFill at h
  cases hr : t.get id with
  | none =>
    rw [hr] at h
    exact changed_of_ok h
  | some r =>
    rw [hr] at h
    cases tradeExists with
    | false =>
      simp only [Bool.false_eq_true, if_false] at h
      split_ifs at h
    | true =>
      simp only [if_true] at h
      split_ifs at h with hstatus haccount
      exact changed_update hr (.fill tradeId _ (not_not.1 hstatus) (not_not.1 haccount))
        (by simp) h

theorem of_cancelPlan {id : ℤ} (h : cancelPlan env t id = .ok (t', answer)) :
    Changed accountOf t t' answer := by
  unfold cancelPlan at h
  cases hr : t.get id with
  | none =>
    rw [hr] at h
    exact changed_of_ok h
  | some r =>
    rw [hr] at h
    dsimp only at h
    split_ifs at h with hstatus
    exact changed_update hr (.cancel _ (by tauto)) (by simp) h

theorem of_deletePlan {id : ℤ} (h : deletePlan t id = .ok (t', answer)) :
    Changed accountOf t t' answer := by
  unfold deletePlan at h
  cases hr : t.get id with
  | none =>
    rw [hr] at h
    exact changed_of_ok h
  | some r =>
    rw [hr] at h
    obtain ⟨hmem, rfl⟩ := Sql.Table.get_eq_some_iff.1 hr
    dsimp only at h
    split_ifs at h with hstatus
    obtain ⟨rfl, rfl⟩ := Prod.mk.inj (Except.ok.inj h)
    refine ⟨.delete r hmem (not_not.1 hstatus) ?_, nofun⟩
    simp [Sql.Table.update, Sql.Table.delete]

/-! ## What a patch can do -/

theorem of_mapM {α β : Type} {f : α → Except PlanError β} {l : List α} {out : List β}
    (h : l.mapM f = .ok out) : ∀ b ∈ out, ∃ a ∈ l, f a = .ok b := by
  induction l generalizing out with
  | nil =>
    obtain rfl := Except.ok.inj h
    simp
  | cons a l ih =>
    rw [List.mapM_cons] at h
    obtain ⟨b, hb, h⟩ := bind_eq_ok.1 h
    obtain ⟨rest, hrest, h⟩ := bind_eq_ok.1 h
    obtain rfl := Except.ok.inj h
    intro b' hb'
    rcases List.mem_cons.1 hb' with rfl | hb'
    · exact ⟨a, List.mem_cons_self .., hb⟩
    · obtain ⟨a', ha', hf⟩ := ih hrest b' hb'
      exact ⟨a', List.mem_cons_of_mem _ ha', hf⟩

theorem column_of_mem_patchColumns {fields : PlanFields} {cells : List (Column × Cell)}
    (h : patchColumns env fields = .ok cells) {x : Column × Cell} (hx : x ∈ cells) :
    (fields.columns x.1).isSome = true := by
  obtain ⟨c, hc, hcell⟩ := of_mapM h x hx
  cases hpatch : patchCell env c ((fields.columns c).getD .null) with
  | error e =>
    rw [hpatch] at hcell
    cases hcell
  | ok cell =>
    rw [hpatch] at hcell
    obtain rfl := Except.ok.inj hcell
    exact (List.mem_filter.1 hc).2

theorem setColumns_of_notMem {cells : List (Column × Cell)} {old : Column → Cell} {c : Column}
    (h : ∀ x ∈ cells, x.1 ≠ c) : setColumns cells old c = old c := by
  have hlookup : cells.lookup c = none :=
    List.lookup_eq_none_iff.2 fun x hx => bne_iff_ne.2 fun hc => h x hx hc.symm
  rw [setColumns, hlookup, Option.getD_none]

theorem eq_expiresAt_of_name {c : Column} (h : c.name = "expires_at") : c = .expiresAt := by
  cases c <;> first | rfl | exact absurd h (by decide)

theorem mem_editableColumns (c : Column) : c ∈ editableColumns := by
  cases c <;> decide

/-- A body that sends no more than the expiry. -/
theorem only_expiresAt {fields : PlanFields}
    (h : fields.names.filter (fun name => name ≠ "expires_at") = []) :
    (∀ c, (fields.columns c).isSome → c = .expiresAt) ∧ fields.legs = none ∧
      fields.source = none := by
  have hnames : ∀ name ∈ fields.names, name = "expires_at" := by
    intro name hname
    by_contra hne
    exact List.filter_eq_nil_iff.1 h name hname (decide_eq_true hne)
  refine ⟨fun c hc => ?_, ?_, ?_⟩
  · have hmem : c.name ∈ fields.names := by
      simp only [PlanFields.names, List.mem_append]
      exact .inl (.inl (List.mem_map_of_mem (List.mem_filter.2 ⟨mem_editableColumns c, hc⟩)))
    exact eq_expiresAt_of_name (hnames _ hmem)
  · cases hlegs : fields.legs with
    | none => rfl
    | some legs =>
      have hmem : "legs" ∈ fields.names := by simp [PlanFields.names, hlegs]
      exact absurd (hnames _ hmem) (by decide)
  · cases hsource : fields.source with
    | none => rfl
    | some source =>
      have hmem : "source" ∈ fields.names := by simp [PlanFields.names, hsource]
      exact absurd (hnames _ hmem) (by decide)

/-- A plan that takes the fields is a draft, or an intended one of which the expiry is sent. -/
theorem of_patchProblem_eq_none {r : PlanRow} {fields : PlanFields}
    {cells : List (Column × Cell)} (h : patchProblem r fields cells = none) :
    r.status = .draft ∨ r.status = .intended ∧
      fields.names.filter (fun name => name ≠ "expires_at") = [] := by
  unfold patchProblem at h
  dsimp only at h
  split_ifs at h with hfrozen hstatus
  by_cases hintended : r.status = .intended
  · have hsorted : sortedBy id (fields.names.filter fun name => name ≠ "expires_at") = [] := by
      by_contra hne
      exact hfrozen ⟨hintended, hne⟩
    exact .inr ⟨hintended, List.nil_perm.1 (hsorted ▸ sortedBy_perm _ _)⟩
  · exact .inl (by_contra fun hdraft => hstatus ⟨hintended, hdraft⟩)

theorem of_patchPlan {id : ℤ} {body : PatchBody}
    (h : patchPlan env t id body = .ok (t', answer)) : Changed accountOf t t' answer := by
  unfold patchPlan at h
  obtain ⟨fields, -, h⟩ := bind_eq_ok.1 h
  obtain ⟨cells, hcells, h⟩ := bind_eq_ok.1 h
  obtain ⟨legs, hlegs, h⟩ := bind_eq_ok.1 h
  obtain ⟨source, hsource, h⟩ := bind_eq_ok.1 h
  cases hr : t.get id with
  | none =>
    rw [hr] at h
    cases h
  | some r =>
    rw [hr] at h
    dsimp only at h
    cases hproblem : patchProblem r fields cells with
    | some problem =>
      rw [hproblem] at h
      cases h
    | none =>
      rw [hproblem] at h
      dsimp only at h
      rcases of_patchProblem_eq_none hproblem with hdraft | ⟨hintended, hnames⟩
      · exact changed_update hr (.edit _ _ _ _ hdraft) (by simp) h
      · obtain ⟨hcolumns, hnolegs, hnosource⟩ := only_expiresAt hnames
        rw [hnolegs] at hlegs
        rw [hnosource] at hsource
        obtain rfl := Except.ok.inj hlegs
        obtain rfl := Except.ok.inj hsource
        refine changed_update hr (.extend _ _ hintended fun c hc => ?_) (by simp) h
        refine setColumns_of_notMem fun x hx heq => hc ?_
        exact heq ▸ hcolumns x.1 (column_of_mem_patchColumns hcells hx)

/-- Every call that goes through changes the table as a call can. -/
theorem of_attempt {call : PlanCall} (h : attempt accountOf t env call = .ok (t', answer)) :
    Changed accountOf t t' answer := by
  cases call with
  | create newId payload => exact of_createPlan h
  | update id payload => exact of_updatePlan h
  | intend id => exact of_intendPlan h
  | linkFill id tradeId tradeExists => exact of_linkFill h
  | cancel id => exact of_cancelPlan h
  | delete id => exact of_deletePlan h
  | patch id body => exact of_patchPlan h

theorem planStep_change (t : PlanTable) (e : CallEnv × PlanCall) :
    PlanChange accountOf t (planStep accountOf t e) := by
  unfold planStep
  split
  case h_1 t' answer h => exact (of_attempt h).1
  case h_2 => exact .same

theorem planStep_of_refused {call : PlanCall} (h : Refused (attempt accountOf t env call)) :
    planStep accountOf t (env, call) = t := by
  unfold planStep
  dsimp only
  split
  case h_1 t' answer hok =>
    rw [hok] at h
    refine (of_attempt hok).2 ?_
    cases answer with
    | done changed =>
      cases changed with
      | false => rfl
      | true => exact h.elim
    | created id => exact h.elim
    | plan row status => exact h.elim
  case h_2 => rfl

/-! ## What stays true of a plan -/

theorem account_text {p : PlanRow} (h : p.checks = true) :
    p.fields .accountId = .text (p.fields .accountId).str := by
  simp only [PlanRow.checks, decide_eq_true_eq] at h
  have htype := h.1 _ (mem_editableColumns .accountId)
  have hnull := h.2.1 .accountId (by decide)
  cases hcell : p.fields .accountId with
  | text s => rfl
  | null => exact absurd hcell hnull
  | int n => simp [hcell, Column.hasType] at htype
  | number x => simp [hcell, Column.hasType] at htype
  | date d => simp [hcell, Column.hasType] at htype
  | time t => simp [hcell, Column.hasType] at htype

theorem linked_of_checks {p : PlanRow} (h : p.checks = true) :
    p.tradeId ≠ none ↔ p.status = .filled := by
  simp only [PlanRow.checks, decide_eq_true_eq] at h
  tauto

/-- A draft has no more to it than the table's checks. -/
theorem planOk_of_draft {p : PlanRow} (hdraft : p.status = .draft) (h : p.checks = true) :
    PlanOk accountOf p := by
  have htrade : p.tradeId = none := by
    by_contra hne
    exact absurd ((linked_of_checks h).1 hne) (by simp [hdraft])
  exact ⟨by simp [hdraft], by simp [hdraft], linked_of_checks h, by simp [htrade]⟩

theorem planOk_move {r new : PlanRow} (h : PlanOk accountOf r) (hr : r.checks = true)
    (hmove : PlanMove accountOf r new) (hnew : new.checks = true) : PlanOk accountOf new := by
  cases hmove with
  | edit fields legs source now hdraft => exact planOk_of_draft hdraft hnew
  | extend fields now hintended hfields =>
    have htrade : r.tradeId = none := by
      by_contra hne
      exact absurd (h.linked.1 hne) (by simp [hintended])
    refine ⟨h.legs, fun hstatus => ?_, linked_of_checks hnew, by simp [htrade]⟩
    simp only [hfields _ (by decide : Column.targetKind ≠ .expiresAt),
      hfields _ (by decide : Column.stopKind ≠ .expiresAt),
      hfields _ (by decide : Column.exitBy ≠ .expiresAt)]
    exact h.exit hstatus
  | intend now hdraft hlegs hexit =>
    refine ⟨fun _ => hlegs, fun _ => hexit, linked_of_checks hnew, ?_⟩
    exact (planOk_of_draft hdraft hr).account
  | fill tradeId now hintended haccount =>
    refine ⟨fun _ => h.legs (.inl hintended), fun _ => h.exit (.inl hintended),
      linked_of_checks hnew, ?_⟩
    rintro t ht
    obtain rfl := Option.some.inj ht
    rw [haccount]
    exact account_text hnew
  | cancel now hstatus =>
    have htrade : r.tradeId = none := by
      by_contra hne
      have hfilled := h.linked.1 hne
      rcases hstatus with hstatus | hstatus
      · exact absurd (hstatus.symm.trans hfilled) (by decide)
      · exact absurd (hstatus.symm.trans hfilled) (by decide)
    exact ⟨by simp, by simp, linked_of_checks hnew, by simp [htrade]⟩

theorem id_of_move {r new : PlanRow} (h : PlanMove accountOf r new) :
    new.strategyPlanId = r.strategyPlanId := by
  cases h <;> rfl

theorem status_of_move {r new : PlanRow} (h : PlanMove accountOf r new) :
    new.status = r.status ∨ StatusMove r.status new.status := by
  cases h with
  | edit => exact .inl rfl
  | extend => exact .inl rfl
  | intend now hdraft => exact .inr (hdraft ▸ .intend)
  | fill tradeId now hintended => exact .inr (hintended ▸ .fill)
  | cancel now hstatus =>
    rcases hstatus with hstatus | hstatus
    · exact .inr (hstatus ▸ .cancelDraft)
    · exact .inr (hstatus ▸ .cancelIntended)

theorem SameContent.of_eq {p p' : PlanRow} (hfields : p'.fields = p.fields)
    (hlegs : p'.legs = p.legs) (hsource : p'.source = p.source) : SameContent p p' :=
  ⟨fun c => .inl (congrFun hfields c), hlegs, hsource⟩

theorem sameContent_of_move {r new : PlanRow} (h : PlanMove accountOf r new)
    (hstatus : r.status ≠ .draft) : SameContent r new := by
  cases h with
  | edit fields legs source now hdraft => exact absurd hdraft hstatus
  | extend fields now hintended hfields =>
    refine ⟨fun c => ?_, rfl, rfl⟩
    by_cases hc : c = .expiresAt
    · exact .inr ⟨hc, hintended⟩
    · exact .inl (hfields c hc)
  | intend now hdraft => exact absurd hdraft hstatus
  | fill => exact .of_eq rfl rfl rfl
  | cancel => exact .of_eq rfl rfl rfl

/-! ## What stays true of the table -/

/-- The invariant of the table. -/
def PlansOk (accountOf : ℤ → String) (t : PlanTable) : Prop :=
  ∀ p ∈ t.rows, PlanOk accountOf p ∧ p.checks = true

theorem plansOk_change (h : PlansOk accountOf t) (hchange : PlanChange accountOf t t') :
    PlansOk accountOf t' := by
  intro p hp
  cases hchange with
  | same => exact h p hp
  | create r hfree hdraft hchecks =>
    rcases Sql.Table.mem_insertOrIgnore.1 hp with hp | ⟨-, rfl⟩
    · exact h p hp
    · exact ⟨planOk_of_draft hdraft hchecks, hchecks⟩
  | move r new hr hmove hchecks =>
    rcases mem_replacePlan.1 hp with ⟨hp, -⟩ | ⟨rfl, -⟩
    · exact h p hp
    · exact ⟨planOk_move (h r hr).1 (h r hr).2 hmove hchecks, hchecks⟩
  | delete r hr hdraft hrows =>
    rw [hrows] at hp
    obtain ⟨q, hq, rfl⟩ := List.mem_map.1 hp
    obtain ⟨hok, hchecks⟩ := h q (List.mem_of_mem_filter hq)
    exact ⟨⟨hok.legs, hok.exit, hok.linked, hok.account⟩, hchecks⟩

/-- What a call makes of one plan that it keeps. -/
structure NextPlan (p p' : PlanRow) : Prop where
  status : p'.status = p.status ∨ StatusMove p.status p'.status
  content : p.status ≠ .draft → SameContent p p'

theorem nextPlan_refl (p : PlanRow) : NextPlan p p := ⟨.inl rfl, fun _ => .of_eq rfl rfl rfl⟩

/-- A stored plan goes on, or it was a draft and is deleted. -/
theorem next_of_change (hchange : PlanChange accountOf t t') {p : PlanRow} (hp : p ∈ t.rows) :
    (∃ p' ∈ t'.rows, p'.strategyPlanId = p.strategyPlanId ∧ NextPlan p p') ∨
      p.status = .draft ∧ ∀ p' ∈ t'.rows, p'.strategyPlanId ≠ p.strategyPlanId := by
  cases hchange with
  | same => exact .inl ⟨p, hp, rfl, nextPlan_refl p⟩
  | create r =>
    exact .inl ⟨p, Sql.Table.mem_insertOrIgnore.2 (.inl hp), rfl, nextPlan_refl p⟩
  | move r new hr hmove =>
    left
    have hid := id_of_move hmove
    by_cases hpr : p.strategyPlanId = r.strategyPlanId
    · obtain rfl := t.eq_of_key hp hr hpr
      exact ⟨new, mem_replacePlan.2 (.inr ⟨rfl, p, hp, hid.symm⟩), hid,
        status_of_move hmove, sameContent_of_move hmove⟩
    · exact ⟨p, mem_replacePlan.2 (.inl ⟨hp, hid ▸ hpr⟩), rfl, nextPlan_refl p⟩
  | delete r hr hdraft hrows =>
    by_cases hpr : p.strategyPlanId = r.strategyPlanId
    · obtain rfl := t.eq_of_key hp hr hpr
      refine .inr ⟨hdraft, fun p' hp' => ?_⟩
      rw [hrows] at hp'
      obtain ⟨q, hq, rfl⟩ := List.mem_map.1 hp'
      exact of_decide_eq_true (List.mem_filter.1 hq).2
    · refine .inl ⟨p.unparent r.strategyPlanId, ?_, rfl, .inl rfl, fun _ => .of_eq rfl rfl rfl⟩
      rw [hrows]
      exact List.mem_map_of_mem (List.mem_filter.2 ⟨hp, decide_eq_true hpr⟩)

/-- A plan that was not there before is a draft. -/
theorem draft_of_new (hchange : PlanChange accountOf t t') {p' : PlanRow} (hp' : p' ∈ t'.rows)
    (hnew : ∀ p ∈ t.rows, p.strategyPlanId ≠ p'.strategyPlanId) : p'.status = .draft := by
  cases hchange with
  | same => exact absurd rfl (hnew p' hp')
  | create r hfree hdraft =>
    rcases Sql.Table.mem_insertOrIgnore.1 hp' with hp' | ⟨-, rfl⟩
    · exact absurd rfl (hnew p' hp')
    · exact hdraft
  | move r new hr hmove =>
    rcases mem_replacePlan.1 hp' with ⟨hp', -⟩ | ⟨rfl, -⟩
    · exact absurd rfl (hnew p' hp')
    · exact absurd (id_of_move hmove).symm (hnew r hr)
  | delete r hr hdraft hrows =>
    rw [hrows] at hp'
    obtain ⟨q, hq, rfl⟩ := List.mem_map.1 hp'
    exact absurd rfl (hnew q (List.mem_of_mem_filter hq))

/-! ## Runs -/

theorem plansOk_after (evs : List (CallEnv × PlanCall)) :
    PlansOk accountOf (plansAfter accountOf evs) := by
  induction evs using List.reverseRecOn with
  | nil => simp [PlansOk, plansAfter]
  | append_singleton evs e ih =>
    rw [plansAfter, Runs.run_snoc]
    exact plansOk_change ih (planStep_change _ e)

theorem change_after (evs : List (CallEnv × PlanCall)) (e : CallEnv × PlanCall) :
    PlanChange accountOf (plansAfter accountOf evs) (plansAfter accountOf (evs ++ [e])) := by
  rw [plansAfter, plansAfter, Runs.run_snoc]
  exact planStep_change _ e

theorem eq_draft_of_moves {s : PlanStatus} (h : Relation.ReflTransGen StatusMove s .draft) :
    s = .draft := by
  rcases h.cases_tail with h | ⟨s', -, hmove⟩
  · exact h.symm
  · cases hmove

theorem eq_intended_of_moves {s : PlanStatus} (h : Relation.ReflTransGen StatusMove s .intended)
    (hs : s ≠ .draft) : s = .intended := by
  rcases h.cases_tail with h | ⟨s', hmoves, hmove⟩
  · exact h.symm
  · cases hmove with
    | intend => exact absurd (eq_draft_of_moves hmoves) hs

/-- A plan that is no draft stays in the table with its content. -/
theorem kept_after (evs later : List (CallEnv × PlanCall)) {p : PlanRow}
    (hp : p ∈ (plansAfter accountOf evs).rows) (hstatus : p.status ≠ .draft) :
    ∃ p' ∈ (plansAfter accountOf (evs ++ later)).rows, p'.strategyPlanId = p.strategyPlanId ∧
      Relation.ReflTransGen StatusMove p.status p'.status ∧ SameContent p p' := by
  induction later using List.reverseRecOn with
  | nil =>
    rw [List.append_nil]
    exact ⟨p, hp, rfl, .refl, .of_eq rfl rfl rfl⟩
  | append_singleton later e ih =>
    obtain ⟨p', hp', hid, hmoves, hcontent⟩ := ih
    have hstatus' : p'.status ≠ .draft := fun h =>
      hstatus (eq_draft_of_moves (h ▸ hmoves))
    rw [← List.append_assoc]
    rcases next_of_change (change_after (evs ++ later) e) hp' with
      ⟨p'', hp'', hid', hnext⟩ | ⟨hdraft, -⟩
    · have hcontent' := hnext.content hstatus'
      refine ⟨p'', hp'', hid'.trans hid, ?_, fun c => ?_, hcontent'.legs.trans hcontent.legs,
        hcontent'.source.trans hcontent.source⟩
      · rcases hnext.status with hsame | hmove
        · rw [hsame]
          exact hmoves
        · exact hmoves.tail hmove
      · rcases hcontent'.columns c with hc | ⟨hc, hintended⟩
        · rw [hc]
          exact hcontent.columns c
        · exact .inr ⟨hc, eq_intended_of_moves (hintended ▸ hmoves) hstatus⟩
    · exact absurd hdraft hstatus'

/-- The law holds after any calls. -/
theorem planLaw_after (accountOf : ℤ → String) (evs : List (CallEnv × PlanCall)) :
    PlanLaw accountOf evs where
  plans p hp := (plansOk_after evs p hp).1
  moves e p hp p' hp' hid := by
    rcases next_of_change (change_after evs e) hp with ⟨q, hq, hidq, hnext⟩ | ⟨-, hgone⟩
    · obtain rfl := (plansAfter accountOf (evs ++ [e])).eq_of_key hq hp' (hidq.trans hid.symm)
      exact ⟨hnext.status, hnext.content⟩
    · exact absurd hid (hgone p' hp')
  created e p' hp' hnew := draft_of_new (change_after evs e) hp' hnew
  deleted e p hp hgone := by
    rcases next_of_change (change_after evs e) hp with ⟨q, hq, hidq, -⟩ | ⟨hdraft, -⟩
    · exact absurd hidq (hgone q hq)
    · exact hdraft
  kept later p hp hstatus := kept_after evs later hp hstatus
  refused env call hrefused := by
    rw [plansAfter, Runs.run_snoc]
    exact planStep_of_refused hrefused

/-! ## A plan that is filled -/

/-- A database that takes texts in text columns and whole numbers elsewhere. -/
def sampleEnv : CallEnv where
  now := 0
  isoTimestamp _ := none
  inner _ := .ok []
  cast
    | .targetValue, .int n => some (.number (.fin n))
    | _, .int n => some (.int n)
    | _, .text s => some (.text s)
    | _, _ => none
  accepts _ := true

/-- One share and a target. -/
def sampleFields : PlanFields where
  columns
    | .accountId => some (.text "U1")
    | .symbol => some (.text "nvda")
    | .structureLabel => some (.text "Shares")
    | .qty => some (.int 1)
    | .targetKind => some (.text "underlying_price")
    | .targetValue => some (.int 200)
    | _ => none
  legs := some (.array [.object
    [(Iso.codes "side".toList, .text (Iso.codes "buy".toList)),
      (Iso.codes "sec_type".toList, .text (Iso.codes "STK".toList))]])
  source := none

example :
    (plansAfter (fun _ => "U1") [(sampleEnv, .create 1 ⟨sampleFields, .null⟩),
      (sampleEnv, .linkFill 1 7 true), (sampleEnv, .intend 1), (sampleEnv, .update 1 sampleFields),
      (sampleEnv, .linkFill 1 7 true), (sampleEnv, .delete 1)]).rows.map
        (fun p => (p.status, p.tradeId, p.fields .symbol)) =
      [(.filled, some 7, .text "NVDA")] := by
  decide +kernel

end Portfolio.Plan
