import BifrostTrade.Lib.Runs
import BifrostTrade.Portfolio.ExecutionWritersProof

/-!
# Whole or split

A fill is attributed whole or split, never both.  Only the two edits that `KeepsWholeOrSplit`
excludes set a whole-fill attribution beside standing splits; every other call keeps the two apart
(`WholeOrSplit.attempt`), and so does every run of such calls (`wholeOrSplit_run`).
-/

namespace Portfolio

open Py Persistence

/-- No fill has both a whole-fill row and a split row. -/
def WholeOrSplit (db : ExecutionDb) : Prop :=
  ∀ x ∈ db.tradeExecution.rows, ∀ y ∈ db.tradeExecution.rows, x.key = y.key →
    ¬ (x.splitQuantity = none ∧ y.splitQuantity ≠ none)

/-- Splits of the fill stand, all of other trades. -/
def MeetsOtherSplits (db : ExecutionDb) (k : FillKey) (trade : ℤ) : Prop :=
  db.splitsAt k ≠ [] ∧ ∀ x ∈ db.splitsAt k, x.tradeId ≠ trade

instance (db : ExecutionDb) (k : FillKey) (trade : ℤ) : Decidable (MeetsOtherSplits db k trade) :=
  inferInstanceAs (Decidable (_ ∧ _))

/-- A trade for the whole fill that goes with no list of splits, or that goes with an empty one
while the account is set to null, does not meet splits of other trades. -/
def KeepsWholeOrSplit (_ : List ExecutionEvent) (db : ExecutionDb) : ExecutionEvent → Prop
  | .insert seqId uuidHex body =>
      let direct := directTrade body.tradeId body.strategyOpportunityId
      let k := body.wholeKey uuidHex
      ∀ t, direct.1 = some t → instanceProblem db t k.1 direct.2 = none →
        insertRaw db body.table (body.row seqId uuidHex) ≠ none →
        body.fillSplits = .absent ∨ body.fillSplits = .null → ¬ MeetsOtherSplits db k t
  | .update id body =>
      let direct := directTrade body.tradeId body.strategyOpportunityId
      ∀ r, fillRow db id = some r → ∀ t, direct.1 = some t →
        let k := (body.newAccount r.fillKey.1, r.fillKey.2)
        instanceProblem db t k.1 direct.2 = none →
        body.fillSplits = .null ∨
          (body.fillSplits = .list [] ∧ body.accountId = .null ∧ r.fillKey.1 ≠ "") →
        ¬ MeetsOtherSplits db k t
  | _ => True

variable {db db' : ExecutionDb} {k : FillKey}

theorem wholeOrSplit_iff : WholeOrSplit db ↔ ∀ k, db.wholeAt k = [] ∨ db.splitsAt k = [] := by
  constructor
  · intro h k
    by_contra hboth
    obtain ⟨hwhole, hsplit⟩ := not_or.1 hboth
    obtain ⟨x, hx⟩ := List.exists_mem_of_ne_nil _ hwhole
    obtain ⟨y, hy⟩ := List.exists_mem_of_ne_nil _ hsplit
    obtain ⟨hx, hxk, hxnone⟩ := ExecutionDb.mem_wholeAt.1 hx
    obtain ⟨hy, hyk, hysome⟩ := ExecutionDb.mem_splitsAt.1 hy
    exact h x hx y hy (hxk.trans hyk.symm) ⟨hxnone, Option.isSome_iff_ne_none.1 hysome⟩
  · rintro h x hx y hy hkey ⟨hxnone, hysome⟩
    rcases h x.key with hwhole | hsplit
    · have hmem : x ∈ db.wholeAt x.key := ExecutionDb.mem_wholeAt.2 ⟨hx, rfl, hxnone⟩
      rw [hwhole] at hmem
      cases hmem
    · have hmem : y ∈ db.splitsAt x.key :=
        ExecutionDb.mem_splitsAt.2 ⟨hy, hkey.symm, Option.isSome_iff_ne_none.2 hysome⟩
      rw [hsplit] at hmem
      cases hmem

namespace WholeOrSplit

theorem empty : WholeOrSplit ExecutionDb.empty := by
  intro x hx
  simp [ExecutionDb.empty] at hx

theorem of_same (h : WholeOrSplit db) (hsame : SameAttribution db db') : WholeOrSplit db' := by
  intro x hx y hy
  rw [hsame.2] at hx hy
  exact h x hx y hy

/-- Splits that are applied leave their fill with one kind of attribution, whatever it had. -/
theorem of_applyFillSplits {id : ℤ} {items : List SplitItem} {r : RawRow}
    (hr : fillRow db id = some r)
    (h : ∀ k, k ≠ r.fillKey → db.wholeAt k = [] ∨ db.splitsAt k = [])
    (happly : applyFillSplits db id items = some db') : WholeOrSplit db' := by
  obtain ⟨r', hr', -, -, hother, -, hempty, hsplits⟩ := Portfolio.of_applyFillSplits happly
  obtain rfl : r = r' := Option.some.inj (hr.symm.trans hr')
  refine wholeOrSplit_iff.2 fun k => ?_
  by_cases hk : k = r.fillKey
  · subst hk
    by_cases hitems : items = []
    · exact .inr (hempty hitems)
    · exact .inl (hsplits hitems)
  · rw [(hother k hk).1, (hother k hk).2]
    exact h k hk

/-- A trade for the whole fill goes in where no splits of other trades stand. -/
theorem of_setWholeAttribution {trade : Option ℤ} (h : WholeOrSplit db)
    (hmeets : ∀ t, trade = some t → ¬ MeetsOtherSplits db k t)
    (hset : setWholeAttribution db k trade = some db') : WholeOrSplit db' := by
  obtain ⟨-, hsplits, hother, hnone, htrade⟩ := Portfolio.of_setWholeAttribution hset
  refine wholeOrSplit_iff.2 fun k' => ?_
  rw [hsplits]
  by_cases hk : k' = k
  · subst hk
    cases trade with
    | none => exact .inl (hnone rfl)
    | some t =>
      right
      by_contra hne
      exact hmeets t rfl ⟨hne, htrade t rfl⟩
  · rw [hother k' hk]
    exact wholeOrSplit_iff.1 h k'

theorem of_delete {id : ℤ} {r : RawRow} (h : WholeOrSplit db) :
    WholeOrSplit (deleteRaw db id r).1 := by
  obtain ⟨-, hsplits, hwhole⟩ := of_deleteRaw db id r
  refine wholeOrSplit_iff.2 fun k => ?_
  rcases wholeOrSplit_iff.1 h k with hnone | hnone
  · left
    apply List.eq_nil_iff_forall_not_mem.2
    intro x hx
    have hx := hwhole k x hx
    rw [hnone] at hx
    cases hx
  · right
    rcases hsplits k with hs | hs
    · exact hs.trans hnone
    · exact hs

theorem of_appliesSplits {id : ℤ} {splits : SplitsField} (h : WholeOrSplit db)
    (happly : AppliesSplits db id splits db') : WholeOrSplit db' := by
  rcases happly with ⟨items, -, happly⟩ | ⟨-, rfl⟩
  · obtain ⟨r, hr, -⟩ := Portfolio.of_applyFillSplits happly
    exact of_applyFillSplits hr (fun k _ => wholeOrSplit_iff.1 h k) happly
  · exact h

theorem of_insert {seqId : SeqId} {uuidHex : UuidHex} {body : InsertBody} {id : ℤ}
    (h : WholeOrSplit db) (hkeep : KeepsWholeOrSplit [] db (.insert seqId uuidHex body))
    (hinsert : insertOneExecution db seqId uuidHex body = some (db', id)) : WholeOrSplit db' := by
  obtain ⟨db₁, db₂, hraw, htrade, hsplits⟩ := of_insertOneExecution hinsert
  have hsame := (of_insertRaw hraw).1
  have h₁ : WholeOrSplit db₁ := h.of_same hsame
  rcases htrade with ⟨-, rfl⟩ | ⟨t, ht, hproblem, hset⟩
  · exact h₁.of_appliesSplits hsplits
  rcases hsplits with ⟨items, -, happly⟩ | ⟨hnone, rfl⟩
  · -- the splits are applied to the very fill that was just given the trade
    obtain ⟨-, hsame₂, hother, -⟩ := Portfolio.of_setWholeAttribution hset
    have hrow : fillRow db₂ (body.newId seqId) = some (body.row seqId uuidHex) := by
      have hfill : fillRow db₂ (body.newId seqId) = fillRow db₁ (body.newId seqId) := by
        have hraw₂ : db₂.raw = db₁.raw := (Portfolio.of_setWholeAttribution hset).1.1
        rw [fillRow, fillRow, hraw₂]
      rw [hfill]
      exact fillRow_insertRaw hraw
    refine of_applyFillSplits hrow (fun k hk => ?_) happly
    rw [fillKey_insertRow] at hk
    rw [hsame₂, hother k hk]
    exact wholeOrSplit_iff.1 h₁ k
  · refine h₁.of_setWholeAttribution (fun t' ht' => ?_) hset
    obtain rfl := Option.some.inj ht'
    have hmeets := hkeep t ht hproblem (by simp [hraw]) hnone
    rwa [MeetsOtherSplits, hsame.splitsAt]

/-- Where the condition holds, the trade an update sets does not meet splits that are left. -/
theorem not_meetsOtherSplits_of_update {id : ℤ} {body : UpdateBody} {db₁ db₂ : ExecutionDb}
    {r : RawRow} {t : ℤ} (hkeep : KeepsWholeOrSplit [] db (.update id body))
    (hr : fillRow db id = some r)
    (ht : (directTrade body.tradeId body.strategyOpportunityId).1 = some t)
    (hraw : UpdatesRow db id body db₁) (hsplits : AppliesSplits db₁ id body.fillSplits db₂)
    (hproblem : body.wholeProblem db₂ (body.newAccount r.fillKey.1, r.fillKey.2)
      (directTrade body.tradeId body.strategyOpportunityId).2 (some t) = false) :
    ¬ MeetsOtherSplits db₂ (body.newAccount r.fillKey.1, r.fillKey.2) t := by
  have hsame := hraw.sameAttribution
  obtain ⟨hproblem, hexcludes⟩ := Bool.or_eq_false_iff.1 hproblem
  have hproblem : instanceProblem db t (body.newAccount r.fillKey.1)
      (directTrade body.tradeId body.strategyOpportunityId).2 = none := by
    rw [instanceProblem, ← hsame.1, ← hsplits.trades]
    exact Option.isNone_iff_eq_none.1 (Option.isSome_eq_false_iff.1 hproblem)
  have hkeep := hkeep r hr t ht hproblem
  rcases hsplits with ⟨items, hitems, happly⟩ | ⟨hnone | hnone, rfl⟩
  · -- only an empty list goes with a trade
    have hempty : items = [] := by simpa [SplitsField.excludesWhole, hitems] using hexcludes
    subst hempty
    obtain ⟨r₁, hr₁, -, -, hother, -, hcleared, -⟩ := Portfolio.of_applyFillSplits happly
    have hkey : r₁.fillKey = (body.edit r).fillKey := by
      rw [Option.some.inj (hr₁.symm.trans (hraw.fillRow hr))]
    rintro ⟨hne, hmeets⟩
    by_cases hfill : (body.newAccount r.fillKey.1, r.fillKey.2) = r₁.fillKey
    · rw [hfill] at hne
      exact hne (hcleared rfl)
    · -- the list was applied under the empty account that a null leaves
      obtain ⟨hnull, hkeynull⟩ := (fillKey_edit body r).resolve_left fun heq =>
        hfill (heq.symm.trans hkey.symm)
      have hold : r.fillKey.1 ≠ "" := by
        intro hold
        apply hfill
        rw [hkey, hkeynull, UpdateBody.newAccount, hnull, ← hold]
      apply hkeep (.inr ⟨hitems, hnull, hold⟩)
      rw [(hother _ hfill).1, hsame.splitsAt] at hne hmeets
      exact ⟨hne, hmeets⟩
  · have hnosplits : db₂.splitsAt (body.newAccount r.fillKey.1, r.fillKey.2) = [] := by
      simpa [SplitsField.excludesWhole, hnone] using hexcludes
    exact fun hmeets => hmeets.1 hnosplits
  · rw [MeetsOtherSplits, hsame.splitsAt]
    exact hkeep (.inl hnone)

theorem of_update {id : ℤ} {body : UpdateBody} (h : WholeOrSplit db)
    (hkeep : KeepsWholeOrSplit [] db (.update id body))
    (hupdate : updateOneExecution db id body = some db') : WholeOrSplit db' := by
  obtain ⟨r, db₁, db₂, db₃, hr, hraw, hsplits, hset, hcomm⟩ := of_updateOneExecution hupdate
  have h₂ : WholeOrSplit db₂ := (h.of_same hraw.sameAttribution).of_appliesSplits hsplits
  have h₃ : WholeOrSplit db₃ := by
    rcases hset with ⟨rfl, -⟩ | ⟨-, hproblem, hset⟩
    · exact h₂
    · refine h₂.of_setWholeAttribution (fun t ht => ?_) hset
      rw [ht] at hproblem
      exact not_meetsOtherSplits_of_update hkeep hr ht hraw hsplits hproblem
  rcases hcomm with ⟨-, hcomm⟩ | ⟨-, rfl⟩
  exacts [h₃.of_same (of_updateRaw hcomm).1, h₃]

theorem of_patch {id : ℤ} {fields : PatchFields} (h : WholeOrSplit db)
    (hpatch : patchExecution db id fields = .ok db') : WholeOrSplit db' := by
  obtain ⟨r, db₁, hr, hsplits, hset⟩ := of_patchExecution hpatch
  have h₁ : WholeOrSplit db₁ ∧ (fields.tradeId.toOption ≠ none → db₁.splitsAt r.fillKey = []) := by
    rcases hsplits with ⟨-, rfl, hnone⟩ | ⟨items, -, happly, hitems⟩
    · exact ⟨h, hnone⟩
    · refine ⟨of_applyFillSplits hr (fun k _ => wholeOrSplit_iff.1 h k) happly, fun ht => ?_⟩
      obtain ⟨r', hr', -, -, -, -, hcleared, -⟩ := Portfolio.of_applyFillSplits happly
      obtain rfl : r = r' := Option.some.inj (hr.symm.trans hr')
      exact hcleared (hitems ht)
  rcases hset with rfl | hset
  · exact h₁.1
  · refine h₁.1.of_setWholeAttribution (fun t ht => ?_) hset
    exact fun hmeets => hmeets.1 (h₁.2 (by simp [ht]))

/-- A call that goes through keeps the two kinds of attribution apart. -/
theorem attempt {e : ExecutionEvent} (h : WholeOrSplit db) (hkeep : KeepsWholeOrSplit [] db e)
    (hattempt : attempt db e = some db') : WholeOrSplit db' := by
  cases e with
  | insert seqId uuidHex body =>
    obtain ⟨⟨db₁, id⟩, hinsert, rfl⟩ := Option.map_eq_some_iff.1 hattempt
    exact h.of_insert hkeep hinsert
  | update id body => exact h.of_update hkeep hattempt
  | patch id fields =>
    cases hpatch : patchExecution db id fields with
    | error err => simp [Portfolio.attempt, hpatch, Except.toOption] at hattempt
    | ok db₁ =>
      simp only [Portfolio.attempt, hpatch, Except.toOption, Option.some.injEq] at hattempt
      exact hattempt ▸ h.of_patch hpatch
  | replaceSplits id allocations =>
    have happlies : AppliesSplits db id allocations db' := by
      cases allocations with
      | absent => exact .inr ⟨.inl rfl, (Option.some.inj hattempt).symm⟩
      | null => exact .inr ⟨.inr rfl, (Option.some.inj hattempt).symm⟩
      | notList => cases hattempt
      | list items => exact .inl ⟨items, rfl, hattempt⟩
    exact h.of_appliesSplits happlies
  | delete id =>
    obtain ⟨r, -, rfl⟩ := Option.map_eq_some_iff.1 hattempt
    exact h.of_delete
  | deleteStrict links id =>
    obtain ⟨⟨db₁, n⟩, hdelete, rfl⟩ := Option.map_eq_some_iff.1 hattempt
    unfold deleteExecutionStrict at hdelete
    split at hdelete
    · cases hdelete
    · split_ifs at hdelete
      · cases hdelete
      · have heq := Option.some.inj hdelete
        rw [← heq]
        exact h.of_delete
  | importRows rows => exact h.of_same (sameAttribution_import hattempt)
  | setTrades trades =>
    intro x hx y hy
    rw [(of_setTrades hattempt).2] at hx hy
    exact h x hx y hy
  | goldenOnly call =>
    obtain ⟨-, -, rfl⟩ := Option.map_eq_some_iff.1 hattempt
    exact h

end WholeOrSplit

/-- In a run whose calls meet the condition no state holds a fill both whole and split. -/
theorem wholeOrSplit_run (evs : List ExecutionEvent)
    (h : Runs.Along executionStep ExecutionDb.empty KeepsWholeOrSplit evs) :
    ∀ pre, pre <+: evs → WholeOrSplit (Runs.run executionStep ExecutionDb.empty pre) := by
  rintro pre ⟨post, rfl⟩
  refine Runs.invariant (fun _ db => WholeOrSplit db) WholeOrSplit.empty
    (fun pre e hkeep hinv => ?_) h.of_append
  show WholeOrSplit ((attempt (Runs.run executionStep ExecutionDb.empty pre) e).getD
    (Runs.run executionStep ExecutionDb.empty pre))
  cases hattempt : attempt (Runs.run executionStep ExecutionDb.empty pre) e with
  | none => exact hinv
  | some db' => exact hinv.attempt hkeep hattempt

/-! ## A null list of splits -/

instance (db : ExecutionDb) : Decidable (WholeOrSplit db) :=
  inferInstanceAs (Decidable (∀ x ∈ db.tradeExecution.rows, ∀ y ∈ db.tradeExecution.rows,
    x.key = y.key → ¬ (x.splitQuantity = none ∧ y.splitQuantity ≠ none)))

/-- An edit that sets the third trade for the whole fill. -/
def sampleWholeEdit (fillSplits : SplitsField) : UpdateBody where
  accountId := .absent
  side := .absent
  quantity := .absent
  source := .absent
  otherColumns := false
  commission := false
  tradeId := .id 3
  strategyOpportunityId := .absent
  fillSplits

/-- The fill is split by hand and then given to the third trade. -/
def sampleWholeRun (fillSplits : SplitsField) : List ExecutionEvent :=
  [.setTrades sampleTrades, .insert sampleSeqId sampleUuid sampleSplitFill,
    .update (-1) (sampleWholeEdit fillSplits)]

/-- With an empty list the splits go and the fill is whole. -/
theorem wholeOrSplit_run_emptySplits :
    WholeOrSplit (Runs.run executionStep ExecutionDb.empty (sampleWholeRun (.list []))) := by
  refine wholeOrSplit_run _ ?_ _ List.prefix_rfl
  refine (Runs.along_snoc [_, _] _).2 ⟨(Runs.along_snoc [_] _).2
    ⟨(Runs.along_snoc [] _).2 ⟨Runs.along_nil, trivial⟩, ?_⟩, ?_⟩
  · intro t _ _ _ hsplits
    simp [sampleSplitFill] at hsplits
  · intro r _ t _ _ _ hsplits
    simp [sampleWholeEdit] at hsplits

/-- With a null for the list the splits stay beside the whole fill. -/
theorem not_wholeOrSplit_nullSplits :
    ¬ WholeOrSplit (Runs.run executionStep ExecutionDb.empty (sampleWholeRun .null)) := by
  decide +kernel

end Portfolio
