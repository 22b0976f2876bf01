import BifrostTrade.Strategy.RuleSound

/-!
# What the writers do to the tables

One statement a writer: what it changes where it goes through, and that it keeps the rows sound.
-/

namespace Strategy

open Py Sql
open Portfolio (WriteSupport.text WriteSupport.number WriteSupport.listValue)

/-! ## Lists on their way to the database -/

section Stored

variable {α β : Type} {f : α → Option β} {xs : List α} {ys : List β}

theorem mapM_ne_nil (h : xs.mapM f = some ys) (hne : xs ≠ []) : ys ≠ [] := by
  rintro rfl
  exact hne (List.forall₂_nil_right_iff.1 (mapM_eq_some_iff.1 h))

/-- Items that come back as they are make a list that does. -/
theorem eq_of_mapM_map {g : β → α} {zs : List β} (hback : ∀ z ∈ zs, ∀ y, f (g z) = some y → y = z)
    (h : (zs.map g).mapM f = some ys) : ys = zs := by
  induction zs generalizing ys with
  | nil => exact List.forall₂_nil_left_iff.1 (mapM_eq_some_iff.1 h)
  | cons z zs ih =>
    have hall := mapM_eq_some_iff.1 h
    rw [List.map_cons] at hall
    cases hall with
    | @cons _ y _ ys hy hys =>
      rw [hback z List.mem_cons_self y hy,
        ih (fun z hz => hback z (List.mem_cons_of_mem _ hz)) (mapM_eq_some_iff.2 hys)]

end Stored

theorem notBlank_of_mapM {points : List (List ℕ)} {texts : List String}
    (hsolid : ∀ p ∈ points, StartsSolid p) (h : points.mapM storedText = some texts) :
    ∀ s ∈ texts, NotBlank s := by
  intro s hs
  obtain ⟨p, hp, hstored⟩ := exists_left_of_forall₂ (mapM_eq_some_iff.1 h) s hs
  exact notBlank_of_storedText (hsolid p hp) hstored

/-! ## Conditions -/

/-- Conditions as the checks leave them. -/
structure CheckedSound (cs : List CheckedCondition) : Prop where
  typed : ∀ c ∈ cs, StartsSolid c.conditionType
  ordered : cs.Pairwise fun c d => c.sortOrder < d.sortOrder

/-- Items by their place, some left out, are in order. -/
theorem checkedSound_of_zipIdx {α : Type} {items : List α} {f : α × ℕ → Option CheckedCondition}
    (hf : ∀ x c, f x = some c → StartsSolid c.conditionType ∧ c.sortOrder = x.2) :
    CheckedSound (items.zipIdx.filterMap f) where
  typed c hc := by
    obtain ⟨x, -, hx⟩ := List.mem_filterMap.1 hc
    exact (hf x c hx).1
  ordered := by
    refine (zipIdx_pairwise items).filterMap _ fun x y hxy c hc d hd => ?_
    rw [(hf x c hc).2, (hf y d hd).2]
    exact hxy

/-- A condition that is stored, field by field. -/
structure CheckedCondition.StoredAs (c : CheckedCondition) (e : EntryCondition) : Prop where
  conditionType : storedText c.conditionType = some e.conditionType
  valueText : c.valueText.map storedText = e.valueText.map some
  valueNumeric : e.valueNumeric = c.valueNumeric
  finite : e.valueNumeric.all Double.isFinite = true
  sortOrder : e.sortOrder = c.sortOrder

theorem CheckedCondition.storedAs {c : CheckedCondition} {e : EntryCondition}
    (h : c.store = some e) : c.StoredAs e := by
  have hfinish : ∀ conditionType valueText, storedText c.conditionType = some conditionType →
      c.valueText.map storedText = valueText.map some →
      (if c.valueNumeric.all Double.isFinite then
        some (⟨conditionType, valueText, c.valueNumeric, c.sortOrder⟩ : EntryCondition)
      else none) = some e → c.StoredAs e := by
    intro conditionType valueText htype hvalue h
    split at h
    · rename_i hfinite
      obtain rfl := Option.some.inj h
      exact ⟨htype, hvalue, rfl, hfinite, rfl⟩
    · cases h
  cases hv : c.valueText with
  | none =>
    simp only [store, hv, Option.bind_eq_bind, Option.bind_eq_some_iff] at h
    obtain ⟨conditionType, htype, valueText, hvalue, h⟩ := h
    obtain rfl := Option.some.inj hvalue
    exact hfinish conditionType none htype (by rw [hv]; rfl) h
  | some text =>
    simp only [store, hv, Option.bind_eq_bind, Option.bind_eq_some_iff] at h
    obtain ⟨conditionType, htype, valueText, hvalue, h⟩ := h
    obtain ⟨s, hs, rfl⟩ := Option.map_eq_some_iff.1 hvalue
    exact hfinish conditionType (some s) htype (by rw [hv, Option.map_some, hs]; rfl) h

theorem conditionsSound_of_store {cs : List CheckedCondition} {es : List EntryCondition}
    (h : CheckedSound cs) (hstore : cs.mapM CheckedCondition.store = some es) :
    ConditionsSound es := by
  have hall := mapM_eq_some_iff.1 hstore
  have horders : es.map EntryCondition.sortOrder = cs.map CheckedCondition.sortOrder := by
    clear h hstore
    induction hall with
    | nil => rfl
    | cons hce _ ih =>
        rw [List.map_cons, List.map_cons, ih, (CheckedCondition.storedAs hce).sortOrder]
  refine ⟨?_, ?_, ?_⟩
  · intro e he
    obtain ⟨c, hc, hce⟩ := exists_left_of_forall₂ hall e he
    exact notBlank_of_storedText (h.typed c hc) (CheckedCondition.storedAs hce).conditionType
  · intro e he
    obtain ⟨c, -, hce⟩ := exists_left_of_forall₂ hall e he
    exact (CheckedCondition.storedAs hce).finite
  · rw [← List.pairwise_map, horders, List.pairwise_map]
    exact h.ordered

theorem checkedSound_normalize (value : Option (List ConditionBody)) :
    CheckedSound (normalizeEntryConditions value) := by
  refine checkedSound_of_zipIdx fun x c hc => ?_
  obtain ⟨body, i⟩ := x
  dsimp only at hc
  split at hc
  · cases hc
  · rename_i hne
    obtain rfl := Option.some.inj hc
    exact ⟨startsSolid_stripPoints hne, rfl⟩

theorem eq_filterMap_of_mapM {α β : Type} {f : α → Except Failure β} {xs : List α} {ys : List β}
    (h : xs.mapM f = .ok ys) : ys = xs.filterMap fun x => (f x).toOption := by
  have hall := mapM_ok_iff.1 h
  clear h
  induction hall with
  | nil => rfl
  | cons hxy _ ih => rw [List.filterMap_cons, toOption_eq_some_iff.2 hxy, ih]

theorem patchEntryCondition_eq_ok {item : Json.Value} {i : ℕ} {c : CheckedCondition}
    (h : patchEntryCondition item i = .ok c) : StartsSolid c.conditionType ∧ c.sortOrder = i := by
  unfold patchEntryCondition at h
  dsimp only at h
  split at h
  · rename_i members
    split at h
    · cases h
    · simp only [bind_ok_iff] at h
      obtain ⟨valueText, -, conditionType, htype, valueNumeric, -, h⟩ := h
      obtain rfl := Except.ok.inj h
      exact ⟨(solid_of_required htype).1, rfl⟩
  · cases h

theorem checkedSound_patch {value : Json.Value} {cs : List CheckedCondition}
    (h : patchEntryConditions value = .ok cs) : CheckedSound cs := by
  obtain ⟨items, -, h⟩ := bind_ok_iff.1 h
  rw [eq_filterMap_of_mapM h]
  refine checkedSound_of_zipIdx fun x c hc => ?_
  exact patchEntryCondition_eq_ok (toOption_eq_some_iff.1 hc)

theorem solid_patchSymbols {value : Json.Value} {symbols : List (List ℕ)}
    (h : patchSymbols value = .ok symbols) : ∀ s ∈ symbols, StartsSolid s := by
  obtain ⟨items, -, h⟩ := bind_ok_iff.1 h
  intro s hs
  obtain ⟨x, -, hx⟩ := exists_left_of_forall₂ (mapM_ok_iff.1 h) s hs
  exact (solid_of_required hx).1

theorem solid_normalizeSymbols {value : Option (List (List ℕ))} :
    ∀ s ∈ normalizeSymbols value, StartsSolid s := by
  intro s hs
  obtain ⟨hmem, hne⟩ := List.mem_filter.1 hs
  obtain ⟨raw, -, rfl⟩ := List.mem_map.1 hmem
  exact startsSolid_stripPoints (of_decide_eq_true hne)

/-- A stored condition is written again as it is. -/
theorem store_checked {e e' : EntryCondition} (h : e.checked.store = some e') : e' = e := by
  have hstored := CheckedCondition.storedAs h
  have htype := eq_of_storedText_pointsOfText hstored.conditionType
  have hvalue : e'.valueText = e.valueText := by
    have heq := hstored.valueText
    rw [EntryCondition.checked, Option.map_map] at heq
    cases hv : e.valueText with
    | none =>
      rw [hv] at heq
      exact Option.map_eq_none_iff.1 heq.symm
    | some s =>
      rw [hv] at heq
      obtain ⟨s', hs', hback⟩ := Option.map_eq_some_iff.1 heq.symm
      rw [hs', eq_of_storedText_pointsOfText hback.symm]
  obtain ⟨conditionType', valueText', valueNumeric', sortOrder'⟩ := e'
  obtain rfl : conditionType' = _ := htype
  obtain rfl : valueText' = _ := hvalue
  obtain rfl : valueNumeric' = _ := hstored.valueNumeric
  obtain rfl : sortOrder' = _ := hstored.sortOrder
  rfl

/-! ## Opportunities -/

theorem checkScopeSymbols_eq_ok {α : Type} {scope : Option ScopeType} {symbols : List α}
    (h : checkScopeSymbols scope symbols = .ok ()) : scope = some .watchlistStk → symbols ≠ [] := by
  unfold checkScopeSymbols at h
  split at h
  · cases h
  · rename_i hfree
    exact fun hscope hnil => hfree ⟨hscope, hnil⟩

theorem solid_of_checkBody {body : OpportunityBody} {row : CheckedBody}
    (h : checkBody body = .ok row) : StartsSolid row.name := by
  unfold checkBody at h
  dsimp only at h
  split at h
  · cases h
  · rename_i hne
    split at h
    · cases h
    · simp only [bind_ok_iff] at h
      obtain ⟨gateId, -, scopeType, -, h⟩ := h
      obtain rfl := Except.ok.inj h
      exact startsSolid_stripPoints hne

theorem notBlank_of_storedName {row : CheckedBody} {name : String} (hsolid : StartsSolid row.name)
    (h : storedName row = .ok name) : NotBlank name := by
  unfold storedName at h
  split at h
  · rename_i stored hstored
    obtain rfl := Except.ok.inj h
    exact notBlank_of_storedText hsolid hstored
  · cases h

/-- The symbols of an update are the body's, or those that were stored. -/
theorem notBlank_of_keptSymbols {sentValue : Option (Option (List (List ℕ)))}
    {stored symbols : List String} (hold : ∀ s ∈ stored, NotBlank s)
    (h : (keptOr sentValue normalizeSymbols (stored.map pointsOfText)).mapM storedText =
      some symbols) : ∀ s ∈ symbols, NotBlank s := by
  cases sentValue with
  | some value => exact notBlank_of_mapM solid_normalizeSymbols h
  | none =>
    rw [eq_of_mapM_map (fun s _ s' hs' => eq_of_storedText_pointsOfText hs') h]
    exact hold

theorem conditionsSound_of_kept {sentValue : Option (Option (List ConditionBody))}
    {stored conditions : List EntryCondition} (hold : ConditionsSound stored)
    (h : (keptOr sentValue normalizeEntryConditions (stored.map EntryCondition.checked)).mapM
      CheckedCondition.store = some conditions) : ConditionsSound conditions := by
  cases sentValue with
  | some value => exact conditionsSound_of_store (checkedSound_normalize value) h
  | none =>
    rw [eq_of_mapM_map (fun e _ e' he' => store_checked he') h]
    exact hold

section Opportunities

variable {detail : Detail} {db : RuleDb}

/-- The opportunities after a write. -/
structure OpportunitiesWritten (db after : RuleDb) : Prop where
  frame : ∃ x, after.tables = { db.tables with opportunities := x }
  sound : (∀ o ∈ db.tables.opportunities.rows, o.Sound) →
    ∀ o ∈ after.tables.opportunities.rows, o.Sound

theorem createOpportunity_written {newId id : ℤ} {body : OpportunityBody} {after : RuleDb}
    (h : createOpportunity db newId body = .ok (some (id, after))) :
    OpportunitiesWritten db after := by
  simp only [createOpportunity, bind_ok_iff, checked_eq_ok_iff] at h
  obtain ⟨row, hrow, ⟨⟩, hscope, name, hname, h⟩ := h
  simp only [pure, Except.pure, Except.ok.injEq, Option.bind_eq_bind, Option.bind_eq_some_iff] at h
  obtain ⟨symbols, hsymbols, conditions, hconditions, h⟩ := h
  split at h
  · simp only [Option.bind_eq_some_iff, Option.some.injEq, Prod.mk.injEq,
      toOption_eq_some_iff] at h
    obtain ⟨after', hcheck, rfl, rfl⟩ := h
    have htables := RuleTables.check_ok hcheck
    refine ⟨⟨_, htables⟩, fun hold o ho => ?_⟩
    rw [htables] at ho
    rcases Table.mem_insertOrIgnore.1 ho with ho | ⟨-, rfl⟩
    · exact hold o ho
    · exact
        { named := notBlank_of_storedName (solid_of_checkBody hrow) hname
          covers := fun hwatch => mapM_ne_nil hsymbols (checkScopeSymbols_eq_ok hscope hwatch)
          symbols := notBlank_of_mapM solid_normalizeSymbols hsymbols
          conditions := conditionsSound_of_store (checkedSound_normalize _) hconditions }
  · cases h

theorem updateOpportunity_written {id : ℤ} {body : OpportunityBody} {after : RuleDb}
    (h : updateOpportunity db id body = .ok (some after)) : OpportunitiesWritten db after := by
  simp only [updateOpportunity, bind_ok_iff] at h
  obtain ⟨row, hrow, name, hname, h⟩ := h
  split at h
  · cases h
  · rename_i existing hexisting
    split at h
    · cases h
    · split at h
      · cases h
      · rename_i first hfirst
        simp only [bind_ok_iff, checked_eq_ok_iff] at h
        obtain ⟨⟨⟩, hscope, h⟩ := h
        simp only [pure, Except.pure, Except.ok.injEq, Option.bind_eq_bind,
          Option.bind_eq_some_iff, toOption_eq_some_iff] at h
        obtain ⟨symbols, hsymbols, conditions, hconditions, hafter⟩ := h
        have htables := RuleTables.check_ok hafter
        rw [RuleTables.check_ok hfirst] at htables
        dsimp only at htables
        -- the row of the id is changed twice: its columns, and then its lists
        rw [Table.modify_modify] at htables
        refine ⟨⟨_, htables⟩, fun hold o ho => ?_⟩
        rw [htables] at ho
        dsimp only at ho
        rcases Table.mem_modify.1 ho with ⟨ho, -⟩ | ⟨old, hmem, hid, rfl⟩
        · exact hold o ho
        · obtain ⟨hmem', hid'⟩ := Table.get_eq_some_iff.1 hexisting
          obtain rfl : old = existing := Table.eq_of_key _ hmem hmem' (hid.trans hid'.symm)
          have hsound := hold old hmem
          exact
            { named := notBlank_of_storedName (solid_of_checkBody hrow) hname
              covers := fun hwatch => mapM_ne_nil hsymbols (checkScopeSymbols_eq_ok hscope hwatch)
              symbols := notBlank_of_keptSymbols hsound.symbols hsymbols
              conditions := conditionsSound_of_kept hsound.conditions hconditions }

/-- The values of a patch as the checks leave them. -/
structure OpportunityChanges.Sound (c : OpportunityChanges) : Prop where
  name : ∀ n ∈ c.name, StartsSolid n
  symbols : ∀ l ∈ c.symbols, ∀ s ∈ l, StartsSolid s
  conditions : ∀ l ∈ c.entryConditions, CheckedSound l

theorem sound_of_checkOpportunityPatch {fields : Json.Value} {c : OpportunityChanges}
    (h : checkOpportunityPatch fields = .ok c) : c.Sound := by
  simp only [checkOpportunityPatch, bind_ok_iff] at h
  obtain ⟨fields, -, name, hname, structureId, -, gateId, -, scopeType, -, isActive, -, symbols,
    hsymbols, conditions, hconditions, h⟩ := h
  obtain rfl := Except.ok.inj h
  exact
    { name := forall_of_sent (fun _ _ hv => (solid_of_required hv).1) hname
      symbols := forall_of_sent (fun _ _ hv => solid_patchSymbols hv) hsymbols
      conditions := forall_of_sent (fun _ _ hv => checkedSound_patch hv) hconditions }

/-- The values of a patch as the columns take them. -/
structure StoredChanges.Sound (c : StoredChanges) : Prop where
  name : ∀ n ∈ c.name, NotBlank n
  symbols : ∀ l ∈ c.symbols, ∀ s ∈ l, NotBlank s
  conditions : ∀ l ∈ c.entryConditions, ConditionsSound l

/-- A column keeps its value, or takes the one that was sent. -/
theorem forall_getD {α : Type} {o : Option α} {a : α} {P : α → Prop} (ha : P a)
    (ho : ∀ b ∈ o, P b) : P (o.getD a) := by
  cases o with
  | none => exact ha
  | some b => exact ho b rfl

/-- What holds of every converted value holds where one was sent. -/
theorem forall_of_optionally {α β ε : Type} {f : α → Except ε β} {o : Option α} {r : Option β}
    {P : β → Prop} (hP : ∀ a ∈ o, ∀ b, f a = .ok b → P b) (h : optionally f o = .ok r) :
    ∀ b ∈ r, P b := by
  rcases optionally_eq_ok_iff.1 h with ⟨-, rfl⟩ | ⟨a, b, rfl, hb, rfl⟩
  · exact fun b hb => absurd hb (Option.not_mem_none b)
  · intro b' hb'
    obtain rfl := Option.some.inj hb'
    exact hP a rfl b hb

theorem StoredChanges.sound_of_store {c : OpportunityChanges} {what : String} {s : StoredChanges}
    (hc : c.Sound) (h : c.store what = .ok s) : s.Sound := by
  simp only [OpportunityChanges.store, bind_ok_iff] at h
  obtain ⟨name, hname, h⟩ := h
  split at h
  · simp only [bind_ok_iff] at h
    obtain ⟨symbols, hsymbols, conditions, hconditions, h⟩ := h
    obtain rfl := Except.ok.inj h
    refine ⟨?_, ?_, ?_⟩
    · exact forall_of_optionally
        (fun n hn b hb => notBlank_of_storedText (hc.name n hn) (orError_eq_ok_iff.1 hb)) hname
    · exact forall_of_optionally
        (fun l hl b hb => notBlank_of_mapM (hc.symbols l hl) (orError_eq_ok_iff.1 hb)) hsymbols
    · refine forall_of_optionally (fun l hl b hb => ?_) hconditions
      exact conditionsSound_of_store (hc.conditions l hl) (orError_eq_ok_iff.1 hb)
  · cases h

/-- The merged row is sound where it passes the check. -/
theorem StoredChanges.sound_apply {c : StoredChanges} {o : Opportunity} (hc : c.Sound)
    (ho : o.Sound) (h : c.checkMerged (c.apply o) = .ok ()) : (c.apply o).Sound where
  named := forall_getD ho.named hc.name
  covers := by
    unfold checkMerged at h
    split at h
    · exact checkScopeSymbols_eq_ok (checked_eq_ok_iff.1 h)
    · rename_i hkept
      -- neither the scope nor the symbols are named
      rw [not_or, Option.not_isSome_iff_eq_none, Option.not_isSome_iff_eq_none] at hkept
      simpa [apply, hkept.1, hkept.2] using ho.covers
  symbols := forall_getD ho.symbols hc.symbols
  conditions := forall_getD ho.conditions hc.conditions

theorem patchOpportunity_written {id : ℤ} {fields : Json.Value} {row : OpportunityRead}
    {after : RuleDb} (h : patchOpportunity detail db id fields = .ok (row, after)) :
    OpportunitiesWritten db after := by
  simp only [patchOpportunity, bind_ok_iff, checked_eq_ok_iff] at h
  obtain ⟨changes, hchanges, stored, hstored, h⟩ := h
  have hsound := StoredChanges.sound_of_store (sound_of_checkOpportunityPatch hchanges) hstored
  split at h
  · cases h
  · rename_i after' hcheck
    have htables := RuleTables.check_ok hcheck
    split at h
    · cases h
    · rename_i merged hmerged
      obtain ⟨⟨⟩, hscope, h⟩ := bind_ok_iff.1 h
      obtain ⟨-, rfl⟩ := Prod.mk.inj (Except.ok.inj h)
      refine ⟨⟨_, htables⟩, fun hold o ho => ?_⟩
      rw [htables, RuleTables.patchOpportunity] at ho hmerged
      dsimp only at ho hmerged
      rcases Table.mem_modify.1 ho with ⟨ho, -⟩ | ⟨old, hmem, hid, rfl⟩
      · exact hold o ho
      · obtain ⟨hin, hkey⟩ := Table.get_eq_some_iff.1 hmerged
        obtain rfl : stored.apply old = merged := Table.eq_of_key _ ho hin (hid.trans hkey.symm)
        exact StoredChanges.sound_apply hsound (hold old hmem) hscope

end Opportunities

/-! ## Allocations -/

/-- The memberships after an allocation's list was written, or not. -/
def listed (t : Table Membership.key) (a : ℤ) : Option (List ℤ) → Table Membership.key
  | some ids => replaceMemberships t a ids
  | none => t

/-- A list without repeats goes in as it would with every conflict resolved. -/
theorem insertMemberships_eq {t : Table Membership.key} {a : ℤ} {ids : List ℤ} (hnd : ids.Nodup)
    (hfree : ∀ x ∈ t.rows, x.allocationId ≠ a) :
    insertMemberships t a ids = putMemberships t a ids := by
  have hzip : (ids.zipIdx.map Prod.fst).Nodup := by rwa [List.zipIdx_map_fst]
  have hkeys : ∀ p ∈ ids.zipIdx, t.hasKey (a, p.1) = false := fun p _ =>
    Table.hasKey_eq_false.2 fun x hx heq => hfree x hx (congrArg Prod.fst heq)
  unfold insertMemberships putMemberships
  generalize ids.zipIdx = places at hzip hkeys
  clear hfree
  induction places generalizing t with
  | nil => rfl
  | cons p places ih =>
    obtain ⟨o, i⟩ := p
    rw [List.map_cons, List.nodup_cons] at hzip
    have hput : putMembership t ⟨a, o, i⟩ = t.insertOrIgnore ⟨a, o, i⟩ :=
      Table.upsert_of_hasKey_eq_false (hkeys (o, i) List.mem_cons_self)
    rw [List.foldl_cons, List.foldl_cons]
    dsimp only
    rw [hput]
    refine ih hzip.2 fun q hq => Table.hasKey_eq_false.2 fun x hx heq => ?_
    rcases Table.mem_insertOrIgnore.1 hx with hx | ⟨-, rfl⟩
    · exact Table.hasKey_eq_false.1 (hkeys q (List.mem_cons_of_mem _ hq)) x hx heq
    · exact hzip.1 (List.mem_map.2 ⟨q, hq, (congrArg Prod.snd heq).symm⟩)

/-- Limits that passed. -/
def LimitsSound (maxPositions : Option ℤ) (maxBpPct : Option Double) : Prop :=
  (∀ n ∈ maxPositions, 0 ≤ n) ∧ ∀ x ∈ maxBpPct, LimitNumber x

theorem limitsSound_of_limitsToScalars {v : Json.Value} {limits : Option ℤ × Option Double}
    (h : limitsToScalars v = .ok limits) : LimitsSound limits.1 limits.2 := by
  unfold limitsToScalars at h
  split at h
  · obtain rfl := Except.ok.inj h
    exact ⟨fun n hn => absurd hn (Option.not_mem_none n),
      fun x hx => absurd hx (Option.not_mem_none x)⟩
  · simp only [bind_ok_iff] at h
    obtain ⟨⟨⟩, -, maxPositions, hpositions, maxBpPct, hpct, h⟩ := h
    obtain rfl := Except.ok.inj h
    exact ⟨le_of_integer hpositions, limit_of_number hpct⟩
  · cases h

section Allocations

variable {detail : Detail} {db : RuleDb}

/-- The allocations and the memberships after a write of an allocation, with its list where one was
sent. -/
structure AllocationsWritten (db after : RuleDb) (a : ℤ) (ids : Option (List ℤ)) : Prop where
  frame : ∃ x, after.tables =
    { db.tables with allocations := x, memberships := listed db.tables.memberships a ids }
  sound : (∀ a ∈ db.tables.allocations.rows, a.Sound) →
    ∀ a ∈ after.tables.allocations.rows, a.Sound

theorem createAllocation_written {newId id : ℤ} {body : AllocationBody} {after : RuleDb}
    (h : createAllocation db newId body = .ok (some (id, after))) :
    AllocationsWritten db after newId body.strategyOpportunityIds.join := by
  unfold createAllocation at h
  dsimp only at h
  split at h
  · cases h
  · rename_i hname
    split at h
    · cases h
    · cases h
    · rename_i ids hids
      simp only [bind_ok_iff, checked_eq_ok_iff, orError_eq_ok_iff] at h
      obtain ⟨gateId, -, limits, hlimits, name, hstored, h⟩ := h
      simp only [pure, Except.pure, Except.ok.injEq] at h
      split at h
      · rename_i hfits
        simp only [Option.bind_eq_bind, Option.bind_eq_some_iff, toOption_eq_some_iff,
          Option.some.injEq, Prod.mk.injEq] at h
        obtain ⟨first, hfirst, after', hafter, rfl, rfl⟩ := h
        have htables := RuleTables.check_ok hafter
        rw [RuleTables.check_ok hfirst] at htables
        dsimp only at htables
        -- the allocation is new, and has no list yet
        have hnone : db.tables.memberships.delete (fun x => decide (x.allocationId = newId)) =
            db.tables.memberships := by
          refine Table.delete_eq_self fun x hx => decide_eq_false fun heq => ?_
          have hkey := db.holds .membershipAllocation x hx x.allocationId rfl
          rw [heq, ← Table.hasKey_iff_mem_keys, hfits.2.2.2] at hkey
          cases hkey
        have hlist : putMemberships db.tables.memberships newId ids =
            listed db.tables.memberships newId body.strategyOpportunityIds.join := by
          rw [hids, Option.join_some, listed, replaceMemberships, hnone]
        rw [hlist] at htables
        refine ⟨⟨_, htables⟩, fun hold a ha => ?_⟩
        rw [htables] at ha
        dsimp only at ha
        rcases Table.mem_insertOrIgnore.1 ha with ha | ⟨-, rfl⟩
        · exact hold a ha
        · have hsound := limitsSound_of_limitsToScalars hlimits
          exact
            { named := notBlank_of_storedText (startsSolid_stripPoints hname) hstored
              maxPositions := hsound.1
              maxBpPct := hsound.2 }
      · cases h

/-- The list of an update: one that is `null` is empty. -/
def AllocationBody.newList (body : AllocationBody) : Option (List ℤ) :=
  body.strategyOpportunityIds.map fun ids => ids.getD []

theorem updateAllocation_written {id : ℤ} {body : AllocationBody} {after : RuleDb}
    (h : updateAllocation db id body = .ok (some after)) :
    AllocationsWritten db after id body.newList := by
  unfold updateAllocation at h
  split at h
  · cases h
  · split at h
    · cases h
    · rename_i hname
      simp only [bind_ok_iff, checked_eq_ok_iff] at h
      obtain ⟨gateId, -, limits, hlimits, name, hstored, h⟩ := h
      simp only [pure, Except.pure, Except.ok.injEq] at h
      split at h
      · simp only [Option.bind_eq_bind, Option.bind_eq_some_iff, toOption_eq_some_iff] at h
        obtain ⟨first, hfirst, h⟩ := h
        have hfirst := RuleTables.check_ok hfirst
        have hframe : after.tables = { first.tables with
            memberships := listed first.tables.memberships id body.newList } := by
          unfold AllocationBody.newList
          split at h
          · rename_i hids
            rw [hids, ← Option.some.inj h]
            rfl
          · rename_i ids hids
            rw [hids]
            split at h
            · exact RuleTables.check_ok (toOption_eq_some_iff.1 h)
            · cases h
        rw [hfirst] at hframe
        refine ⟨⟨_, hframe⟩, fun hold a ha => ?_⟩
        rw [hframe] at ha
        dsimp only at ha
        rcases Table.mem_modify.1 ha with ⟨ha, -⟩ | ⟨old, hmem, -, rfl⟩
        · exact hold a ha
        · have hnamed : ∀ n ∈ name, NotBlank n := by
            refine forall_of_optionally (fun points hpoints n hn => ?_) hstored
            refine notBlank_of_storedText (startsSolid_stripPoints fun hblank => hname ?_)
              (orError_eq_ok_iff.1 hn)
            rw [Option.mem_def.1 hpoints, Option.map_some, hblank]
          have hlimited : ∀ l ∈ limits, LimitsSound l.1 l.2 :=
            forall_of_optionally (fun _ _ _ hl => limitsSound_of_limitsToScalars hl) hlimits
          have hsound := hold old hmem
          exact
            { named := forall_getD hsound.named hnamed
              maxPositions := by
                cases limits with
                | some l => exact (hlimited l rfl).1
                | none => exact hsound.maxPositions
              maxBpPct := by
                cases limits with
                | some l => exact (hlimited l rfl).2
                | none => exact hsound.maxBpPct }
      · cases h

/-- The values of a patch as the checks leave them. -/
structure AllocationChanges.Sound (c : AllocationChanges) : Prop where
  name : ∀ n ∈ c.name, StartsSolid n
  maxPositions : ∀ m ∈ c.maxPositions, ∀ n ∈ m, 0 ≤ n
  maxBpPct : ∀ m ∈ c.maxBpPct, ∀ x ∈ m, LimitNumber x
  opportunityIds : ∀ ids ∈ c.opportunityIds, ids.Nodup

theorem nodup_of_patchOpportunityIds {v : Json.Value} {ids : List ℤ}
    (h : patchOpportunityIds v = .ok ids) : ids.Nodup := by
  simp only [patchOpportunityIds, bind_ok_iff] at h
  obtain ⟨items, -, ids', -, h⟩ := h
  split at h
  · rename_i hnd
    obtain rfl := Except.ok.inj h
    exact hnd
  · cases h

theorem sound_of_checkAllocationPatch {fields : Json.Value} {c : AllocationChanges}
    (h : checkAllocationPatch fields = .ok c) : c.Sound := by
  simp only [checkAllocationPatch, bind_ok_iff] at h
  obtain ⟨-, -, fields, -, h⟩ := h
  split at h
  · cases h
  · simp only [bind_ok_iff] at h
    obtain ⟨name, hname, gateId, -, maxPositions, hpositions, maxBpPct, hpct, isActive, -,
      opportunityIds, hids, h⟩ := h
    obtain rfl := Except.ok.inj h
    exact
      { name := forall_of_sent (fun _ _ hv => (solid_of_required hv).1) hname
        maxPositions := forall_of_sent (fun _ _ hv => le_of_integer hv) hpositions
        maxBpPct := forall_of_sent (fun _ _ hv => limit_of_number hv) hpct
        opportunityIds := forall_of_sent (fun _ _ hv => nodup_of_patchOpportunityIds hv) hids }

theorem AllocationChanges.sound_apply {c : AllocationChanges} {name : Option String}
    {a : Allocation} (hc : c.Sound) (hname : ∀ n ∈ name, NotBlank n) (ha : a.Sound) :
    (c.apply name a).Sound where
  named := forall_getD ha.named hname
  maxPositions := forall_getD ha.maxPositions hc.maxPositions
  maxBpPct := forall_getD ha.maxBpPct hc.maxBpPct

/-- The list that a patch names. -/
def patchedList (fields : Json.Value) : Option (List ℤ) :=
  (checkAllocationPatch fields).toOption.bind AllocationChanges.opportunityIds

theorem patchAllocation_written {id : ℤ} {fields : Json.Value} {row : AllocationRead}
    {after : RuleDb} (h : patchAllocation detail db id fields = .ok (row, after)) :
    AllocationsWritten db after id (patchedList fields) := by
  simp only [patchAllocation, bind_ok_iff, checked_eq_ok_iff] at h
  obtain ⟨changes, hchanges, name, hname, h⟩ := h
  have hsound := sound_of_checkAllocationPatch hchanges
  have hnamed : ∀ n ∈ name, NotBlank n := forall_of_optionally
    (fun points hpoints n hn =>
      notBlank_of_storedText (hsound.name points hpoints) (orError_eq_ok_iff.1 hn)) hname
  have hlist : patchedList fields = changes.opportunityIds := by
    rw [patchedList, hchanges]
    rfl
  rw [hlist]
  split at h
  · cases h
  · split at h
    · cases h
    · rename_i first hfirst
      have hfirst := RuleTables.check_ok hfirst
      split at h
      · cases h
      · have hframe : after.tables = { first.tables with
            memberships := listed first.tables.memberships id changes.opportunityIds } := by
          split at h
          · rename_i hids
            rw [hids, ← (Prod.mk.inj (Except.ok.inj h)).2]
            rfl
          · rename_i ids hids
            rw [hids]
            split at h
            · cases h
            · split at h
              · cases h
              · rename_i after' hafter
                rw [← (Prod.mk.inj (Except.ok.inj h)).2, RuleTables.check_ok hafter, listed,
                  replaceMemberships, ← insertMemberships_eq (hsound.opportunityIds ids hids)]
                exact fun x hx => of_decide_eq_false (Table.mem_delete.1 hx).2
        rw [hfirst] at hframe
        refine ⟨⟨_, hframe⟩, fun hold a ha => ?_⟩
        rw [hframe] at ha
        dsimp only at ha
        rcases Table.mem_modify.1 ha with ⟨ha, -⟩ | ⟨old, hmem, -, rfl⟩
        · exact hold a ha
        · exact AllocationChanges.sound_apply hsound hnamed (hold old hmem)

end Allocations

/-! ## Trades -/

section Trades

variable {detail : Detail} {db : RuleDb}

/-- The trades after a write. -/
structure TradesWritten (db after : RuleDb) : Prop where
  frame : ∃ x, after.tables = { db.tables with trades := x }
  sound : (∀ x ∈ db.tables.trades.rows, x.Sound) → ∀ x ∈ after.tables.trades.rows, x.Sound

/-- A label that is stored is not blank. -/
theorem notBlank_of_storedLabel {what name : String} {v : Json.Value} {label : Option (List ℕ)}
    {stored : Option String} (h : WriteSupport.text v name true none = .ok label)
    (hstored : storedLabel what label = .ok stored) : ∀ s ∈ stored, NotBlank s := by
  refine forall_of_optionally (fun points hpoints s hs => ?_) hstored
  rw [Option.mem_def.1 hpoints] at h
  exact notBlank_of_storedText (solid_of_text h).1 (orError_eq_ok_iff.1 hs)

theorem createInstanceStrict_written {now : Portfolio.Plan.Instant} {newId : ℤ}
    {opportunityId accountId openedAt label : Json.Value} {row : Trade} {after : RuleDb}
    (h : createInstanceStrict detail db now newId opportunityId accountId openedAt label =
      .ok (row, after)) : TradesWritten db after := by
  simp only [createInstanceStrict, bind_ok_iff, checked_eq_ok_iff] at h
  obtain ⟨opportunity, -, account, haccount, opened, -, label, hlabel, h⟩ := h
  split at h
  · cases h
  · simp only [bind_ok_iff, orError_eq_ok_iff] at h
    obtain ⟨account, hstored, label, hlabel', opened, -, h⟩ := h
    split at h
    · cases h
    · split at h
      · cases h
      · rename_i after' hcheck
        obtain ⟨-, rfl⟩ := Prod.mk.inj (Except.ok.inj h)
        have htables := RuleTables.check_ok hcheck
        refine ⟨⟨_, htables⟩, fun hold x hx => ?_⟩
        rw [htables] at hx
        dsimp only at hx
        rcases Table.mem_insertOrIgnore.1 hx with hx | ⟨-, rfl⟩
        · exact hold x hx
        · exact
            { account := notBlank_of_storedText (solid_of_required haccount).1 hstored
              label := notBlank_of_storedLabel hlabel hlabel' }

theorem patchInstance_written {id : ℤ} {fields : Json.Value} {row : Trade} {after : RuleDb}
    (h : patchInstance detail db id fields = .ok (row, after)) : TradesWritten db after := by
  simp only [patchInstance, bind_ok_iff, checked_eq_ok_iff] at h
  obtain ⟨changes, hchanges, label, hlabel, openedAt, -, createdAt, -, h⟩ := h
  have hlabels : ∀ l ∈ label, ∀ s ∈ l, NotBlank s := by
    simp only [checkTradePatch, bind_ok_iff] at hchanges
    obtain ⟨⟨⟩, -, fields, -, sentLabel, hsent, opened, -, created, -, hchanges⟩ := hchanges
    obtain rfl := Except.ok.inj hchanges
    refine forall_of_optionally (fun text htext s hs => ?_) hlabel
    have hcheck : ∀ t ∈ sentLabel, ∃ v, WriteSupport.text v "label" true none = .ok t :=
      forall_of_sent (fun v _ hv => ⟨v, hv⟩) hsent
    obtain ⟨v, hv⟩ := hcheck text htext
    exact notBlank_of_storedLabel hv hs
  split at h
  · cases h
  · rename_i after' hcheck
    have htables := RuleTables.check_ok hcheck
    split at h
    · cases h
    · obtain ⟨-, rfl⟩ := Prod.mk.inj (Except.ok.inj h)
      refine ⟨⟨_, htables⟩, fun hold x hx => ?_⟩
      rw [htables] at hx
      dsimp only at hx
      rcases Table.mem_modify.1 hx with ⟨hx, -⟩ | ⟨old, hmem, -, rfl⟩
      · exact hold x hx
      · exact
          { account := (hold old hmem).account
            label := forall_getD (P := fun l : Option String => ∀ s ∈ l, NotBlank s)
              (hold old hmem).label hlabels }

end Trades

/-! ## Reviews -/

/-- Tags as the checks leave them. -/
structure CheckedTags (tags : List (List ℕ)) : Prop where
  nodup : tags.Nodup
  each : ∀ tag ∈ tags, StartsSolid tag ∧ tag.length ≤ tagLenMax

theorem CheckedTags.snoc {tags : List (List ℕ)} {tag : List ℕ} (h : CheckedTags tags)
    (hnew : tag ∉ tags) (htag : StartsSolid tag ∧ tag.length ≤ tagLenMax) :
    CheckedTags (tags ++ [tag]) where
  nodup := by
    rw [List.nodup_append]
    refine ⟨h.nodup, List.nodup_singleton _, fun a ha b hb => ?_⟩
    obtain rfl := List.mem_singleton.1 hb
    exact fun heq => hnew (heq ▸ ha)
  each := by
    intro t ht
    rcases List.mem_append.1 ht with ht | ht
    · exact h.each t ht
    · obtain rfl := List.mem_singleton.1 ht
      exact htag

theorem checkedTags_cleanTagsFrom {tags out : List (List ℕ)} (h : CheckedTags out)
    (hcount : out.length < tagMax) :
    CheckedTags (cleanTagsFrom out tags) ∧ (cleanTagsFrom out tags).length ≤ tagMax := by
  induction tags generalizing out with
  | nil => exact ⟨h, hcount.le⟩
  | cons raw tags ih =>
    have hgo : ∀ next : List (List ℕ), CheckedTags next ∧ next.length ≤ tagMax →
        CheckedTags (if tagMax ≤ next.length then next else cleanTagsFrom next tags) ∧
          (if tagMax ≤ next.length then next else cleanTagsFrom next tags).length ≤ tagMax := by
      intro next hnext
      split
      · exact hnext
      · rename_i hmore
        exact ih hnext.1 (not_le.1 hmore)
    unfold cleanTagsFrom
    refine hgo _ ?_
    split
    · rename_i hnew
      have hsolid : StartsSolid ((stripPoints raw).take tagLenMax) := by
        refine (startsSolid_stripPoints ?_).take (by decide)
        intro hnil
        exact hnew.1 (by rw [hnil, List.take_nil])
      refine ⟨h.snoc hnew.2 ⟨hsolid, List.length_take_le ..⟩, ?_⟩
      rw [List.length_append, List.length_singleton]
      exact hcount
    · exact ⟨h, hcount.le⟩

theorem checkedTags_patchTagsFrom {name : String} {items : List (Json.Value × ℕ)}
    {out tags : List (List ℕ)} (hout : CheckedTags out)
    (h : patchTagsFrom name out items = .ok tags) : CheckedTags tags := by
  induction items generalizing out with
  | nil =>
    obtain rfl := Except.ok.inj h
    exact hout
  | cons x items ih =>
    obtain ⟨item, i⟩ := x
    obtain ⟨tag, htag, h⟩ := bind_ok_iff.1 h
    refine ih ?_ h
    split
    · exact hout
    · rename_i hnew
      obtain ⟨hsolid, hlength⟩ := solid_of_required htag
      exact hout.snoc hnew ⟨hsolid, by exact_mod_cast hlength _ rfl⟩

/-- Tags that were checked are stored as they are. -/
theorem tagsSound_of_stored {tags : List (List ℕ)} {texts : List String} (h : CheckedTags tags)
    (hcount : tags.length ≤ tagMax) (hstored : tags.mapM storedText = some texts) :
    TagsSound texts := by
  have hall := mapM_eq_some_iff.1 hstored
  refine ⟨?_, hall.length_eq ▸ hcount, ?_⟩
  · have hback : texts.map pointsOfText = tags := by
      clear h hcount hstored
      induction hall with
      | nil => rfl
      | cons hp _ ih => rw [List.map_cons, ih, pointsOfText_of_storedText hp]
    exact List.Nodup.of_map pointsOfText (hback ▸ h.nodup)
  · intro s hs
    obtain ⟨p, hp, hps⟩ := exists_left_of_forall₂ hall s hs
    obtain ⟨hsolid, hlength⟩ := h.each p hp
    refine ⟨notBlank_of_storedText hsolid hps, ?_⟩
    rw [← (storedText_eq_some_iff.1 hps).2, pointsText, String.toList_ofList, List.length_map]
    exact hlength

theorem TagsSound.nil : TagsSound [] := ⟨List.nodup_nil, Nat.zero_le _, by simp⟩

section Reviews

variable {detail : Detail} {db : RuleDb}

/-- A write of a review of sound tags. -/
structure ReviewWritten (db after : RuleDb) (now : Portfolio.Plan.Instant) (newId tradeId : ℤ)
    (c : ReviewChanges) : Prop where
  frame : after.tables = db.tables.putReview c now newId tradeId
  added : ∀ tags ∈ c.tagsAdded, TagsSound tags
  dropped : ∀ tags ∈ c.tagsDropped, TagsSound tags

theorem ReviewWritten.sound {after : RuleDb} {now : Portfolio.Plan.Instant} {newId tradeId : ℤ}
    {c : ReviewChanges} (h : ReviewWritten db after now newId tradeId c)
    (hold : ∀ r ∈ db.tables.reviews.rows, r.Sound) : ∀ r ∈ after.tables.reviews.rows, r.Sound := by
  intro r hr
  rw [h.frame, RuleTables.putReview] at hr
  dsimp only at hr
  rcases Table.mem_upsert.1 hr with ⟨hr, -⟩ | ⟨old, hmem, -, rfl⟩ | ⟨-, rfl⟩
  · exact hold r hr
  · exact ⟨forall_getD (hold old hmem).added h.added, forall_getD (hold old hmem).dropped h.dropped⟩
  · exact ⟨forall_getD TagsSound.nil h.added, forall_getD TagsSound.nil h.dropped⟩

theorem saveReview_written {now : Portfolio.Plan.Instant} {newId tradeId : ℤ}
    {payload : ReviewPayload} {row : Option Review} {after : RuleDb}
    (h : saveReview db now newId tradeId payload = .ok (row, after)) :
    ∃ c, c.reviewed = payload.reviewed ∧ ReviewWritten db after now newId tradeId c := by
  unfold saveReview at h
  split at h
  · cases h
  · simp only [bind_ok_iff] at h
    obtain ⟨added, hadded, dropped, hdropped, h⟩ := h
    split at h
    · cases h
    · split at h
      · cases h
      · rename_i after' hcheck
        obtain ⟨-, rfl⟩ := Prod.mk.inj (Except.ok.inj h)
        have hclean : ∀ (tags : List (List ℕ)) (texts : List String),
            orError SaveRaised.data ((cleanTags tags).mapM storedText) = .ok texts →
              TagsSound texts := by
          intro tags texts hstored
          have hstart : CheckedTags [] := ⟨List.nodup_nil, by simp⟩
          have hclean : CheckedTags (cleanTags tags) ∧ (cleanTags tags).length ≤ tagMax :=
            checkedTags_cleanTagsFrom hstart (by decide)
          exact tagsSound_of_stored hclean.1 hclean.2 (orError_eq_ok_iff.1 hstored)
        exact ⟨⟨added, dropped, payload.reviewed⟩, rfl, RuleTables.check_ok hcheck,
          forall_of_optionally (fun tags _ texts => hclean tags texts) hadded,
          forall_of_optionally (fun tags _ texts => hclean tags texts) hdropped⟩

theorem checkedTags_patchTags {value : Json.Value} {name : String} {tags : List (List ℕ)}
    (h : patchTags value name = .ok tags) : CheckedTags tags ∧ tags.length ≤ tagMax := by
  simp only [patchTags, bind_ok_iff] at h
  obtain ⟨items, -, out, hout, h⟩ := h
  split at h
  · cases h
  · rename_i hcount
    obtain rfl := Except.ok.inj h
    exact ⟨checkedTags_patchTagsFrom ⟨List.nodup_nil, by simp⟩ hout, not_lt.1 hcount⟩

/-- What a patch says of the stamp. -/
def patchedReviewed (fields : Json.Value) : Option Bool :=
  (checkReviewPatch fields).toOption.bind CheckedReview.reviewed

theorem patchReview_written {now : Portfolio.Plan.Instant} {newId tradeId : ℤ}
    {fields : Json.Value} {row : Review} {after : RuleDb}
    (h : patchReview detail db now newId tradeId fields = .ok (row, after)) :
    ∃ c, c.reviewed = patchedReviewed fields ∧ ReviewWritten db after now newId tradeId c := by
  simp only [patchReview, bind_ok_iff, checked_eq_ok_iff] at h
  obtain ⟨changes, hchanges, h⟩ := h
  have hreviewed : patchedReviewed fields = changes.reviewed := by
    rw [patchedReviewed, hchanges]
    rfl
  split at h
  · cases h
  · simp only [bind_ok_iff] at h
    obtain ⟨added, hadded, dropped, hdropped, h⟩ := h
    have hchecked : (∀ tags ∈ changes.tagsAdded, CheckedTags tags ∧ tags.length ≤ tagMax) ∧
        ∀ tags ∈ changes.tagsDropped, CheckedTags tags ∧ tags.length ≤ tagMax := by
      simp only [checkReviewPatch, bind_ok_iff] at hchanges
      obtain ⟨⟨⟩, -, fields, -, tagsAdded, htagsAdded, tagsDropped, htagsDropped, reviewed, -,
        hchanges⟩ := hchanges
      obtain rfl := Except.ok.inj hchanges
      exact ⟨forall_of_sent (fun _ _ hv => checkedTags_patchTags hv) htagsAdded,
        forall_of_sent (fun _ _ hv => checkedTags_patchTags hv) htagsDropped⟩
    split at h
    · cases h
    · rename_i after' hcheck
      split at h
      · cases h
      · obtain ⟨-, rfl⟩ := Prod.mk.inj (Except.ok.inj h)
        refine ⟨⟨added, dropped, changes.reviewed⟩, hreviewed.symm, RuleTables.check_ok hcheck,
          ?_, ?_⟩
        · refine forall_of_optionally (fun tags htags texts htexts => ?_) hadded
          obtain ⟨htags, hcount⟩ := hchecked.1 tags htags
          exact tagsSound_of_stored htags hcount (orError_eq_ok_iff.1 htexts)
        · refine forall_of_optionally (fun tags htags texts htexts => ?_) hdropped
          obtain ⟨htags, hcount⟩ := hchecked.2 tags htags
          exact tagsSound_of_stored htags hcount (orError_eq_ok_iff.1 htexts)

end Reviews

end Strategy
