import BifrostTrade.Portfolio.GateSafetyMerge

/-!
# What a patch of a gate set stores

After a patch each leaf of the limits is what was sent for it, checked, or what it was
(`limits_of_newParams`).  This goes through the merge, the check of the whole and the column, from
which the limits are read again.
-/

namespace Portfolio.GateSafety

open Py
open Py.Json (Members Path setKey get?_setKey_below)
open Py.Schema (Filled LeafCheck)

/-! ## What is outside -/

/-- The value is a text. -/
def isText : Json.Value → Bool
  | .text _ => true
  | _ => false

/-- The values of a type of leaves. -/
def hasType : LeafType → Json.Value → Bool
  | .int, .int _ => true
  | .float, .float _ => true
  | .bool, .bool _ => true
  | .strings, .array items => items.all isText
  | _, _ => false

/-- pydantic's check of a leaf answers values of its type and keeps them.  What is read back of a
column is an object of the members read back, and of a value of a leaf something that the check
turns into it. -/
structure Outside (env : Env) : Prop where
  check : LeafCheck env.check hasType
  object : ∀ {members v}, env.jsonb (.object members) = .ok v → ∃ members', v = .object members' ∧
    ∀ k, (members.lookup k = none → members'.lookup k = none) ∧
      ∀ x, members.lookup k = some x → ∃ y, members'.lookup k = some y ∧ env.jsonb x = .ok y
  leaf : ∀ {type w v}, hasType type w = true → env.jsonb w = .ok v → env.check type v = .ok w

theorem wellFormed_gateParams : Schema.wellFormed hasType gateParams = true := by decide

/-! ## The dates -/

/-- Where the dates of earnings stand in a gate set. -/
def datesPath : Path := [key "strategy", key "earnings", key "dates"]

theorem leaf_ne_nil {name : String} {fields : List (List ℕ × Schema LeafType)} {path : Path}
    {type : LeafType} {default : Json.Value}
    (h : (Schema.model name fields).get? path = some (.leaf type default)) : path ≠ [] := by
  rintro rfl
  cases h

/-- At a leaf, what is there after the dates are set. -/
theorem get?_setDates {params strategy earnings : Members} {dates : Json.Value}
    (values : List (List ℕ))
    (hstrategy : params.lookup (key "strategy") = some (.object strategy))
    (hearnings : strategy.lookup (key "earnings") = some (.object earnings))
    (hdates : earnings.lookup (key "dates") = some dates) {path : Path}
    {type : LeafType} {default : Json.Value}
    (hleaf : gateParams.get? path = some (.leaf type default)) :
    (Json.Value.object (setDates params values)).get? path =
      if path = datesPath then some (.array (values.map .text))
      else (Json.Value.object params).get? path := by
  simp only [setDates, hstrategy, membersOf, hearnings]
  refine get?_setKey_below hstrategy (leaf_ne_nil hleaf) ?_
  rintro below rfl
  have hstrategyLeaf : gateStrategyParams.get? below = some (.leaf type default) := hleaf
  refine get?_setKey_below hearnings (leaf_ne_nil hstrategyLeaf) ?_
  rintro below rfl
  have hearningsLeaf : gateEarningsParams.get? below = some (.leaf type default) := hstrategyLeaf
  refine get?_setKey_below hdates (leaf_ne_nil hearningsLeaf) ?_
  rintro below rfl
  -- the dates are a leaf, so nothing is below them
  cases below with
  | nil => simp
  | cons k below => cases hearningsLeaf

/-! ## The limits after a patch -/

/-- What a patch sends for a leaf of the limits. -/
def Changes.sent (changes : Changes) (path : Path) : Option Json.Value :=
  if path = datesPath then changes.dates.map fun values => .array (values.map .text)
  else changes.gates.bind fun gates => (Json.Value.object gates).get? path

/-- The gates are known, do not name the dates, and no object in them has a key twice. -/
structure GatesKnown (gates : Members) : Prop where
  known : Known gateParams (.object gates)
  dates : (Json.Value.object gates).get? datesPath = none
  distinct : (Json.Value.object gates).DistinctKeys

section Patched

variable {check : LeafType → Json.Value → Except ValidationError Json.Value}
  {given : Option Json.Value} {params : Members} {changes : Changes}

theorem model_lookup {name : String} {fields : List (List ℕ × Schema LeafType)}
    {v : Json.Value} {given : Option Json.Value} (h : Filled check (.model name fields) given v) :
    ∃ members, v = .object members := by
  obtain ⟨vs, rfl, -⟩ := h.model
  exact ⟨vs, rfl⟩

/-- After the gates are merged a leaf has what they send for it, or what it had; the models are
objects still. -/
theorem get?_mergedGates (hcheck : LeafCheck check hasType)
    (hparams : Filled check gateParams given (.object params))
    (hgates : ∀ gates ∈ changes.gates, GatesKnown gates) {path : Path} {s : Schema LeafType}
    (hs : gateParams.get? path = some s) :
    ∃ e e' given', (Json.Value.object params).get? path = some e ∧ Filled check s given' e ∧
      (Json.Value.object (changes.gates.elim params (deepMerge params))).get? path = some e' ∧
      (∀ name fields, s = .model name fields → ∃ members, e' = .object members) ∧
      ∀ type default, s = .leaf type default →
        e' = ((changes.gates.bind fun gates => (Json.Value.object gates).get? path).getD e) := by
  cases hg : changes.gates with
  | none =>
    obtain ⟨e, given', he, hfilled⟩ := hparams.get? hs
    refine ⟨e, e, given', he, hfilled, he, ?_, fun _ _ _ => rfl⟩
    rintro name fields rfl
    exact model_lookup hfilled
  | some gates =>
    obtain ⟨hknown, -, hdistinct⟩ := hgates gates hg
    obtain ⟨e, given', hfilled, he, hcases⟩ := merged_get? hparams hknown hdistinct hs
    rw [mergedValue_object] at hcases
    rcases hcases with ⟨hnone, hmerged⟩ | ⟨q, hq, hknown, hmerged⟩
    · refine ⟨e, e, given', he, hfilled, hmerged, ?_, fun _ _ _ => ?_⟩
      · rintro name fields rfl
        exact model_lookup hfilled
      · rw [Option.bind_some, hnone, Option.getD_none]
    · refine ⟨e, mergedValue (some e) q, given', he, hfilled, hmerged, ?_, ?_⟩
      · rintro name fields rfl
        obtain ⟨vs, rfl⟩ := model_lookup hfilled
        obtain ⟨members, -, rfl, -⟩ := hknown
        exact ⟨_, mergedValue_object vs members⟩
      · rintro type default rfl
        have hdefault := Schema.wellFormed_get? wellFormed_gateParams hs
        have htype := hfilled.leaf hcheck hdefault
        rw [Option.bind_some, hq, Option.getD_some]
        exact mergedValue_of_not_isObject (hcheck.isObject htype)

/-- The dates are where they were. -/
theorem dates_of_merged (hcheck : LeafCheck check hasType)
    (hparams : Filled check gateParams given (.object params))
    (hgates : ∀ gates ∈ changes.gates, GatesKnown gates) :
    ∃ strategy earnings dates,
      (changes.gates.elim params (deepMerge params)).lookup (key "strategy") =
        some (.object strategy) ∧
      strategy.lookup (key "earnings") = some (.object earnings) ∧
      earnings.lookup (key "dates") = some dates := by
  have hmerged : ∀ {path s}, gateParams.get? path = some s → _ :=
    fun hs => get?_mergedGates hcheck hparams hgates hs
  obtain ⟨-, e₁, -, -, -, h₁, hmodel₁, -⟩ :=
    @hmerged [key "strategy"] gateStrategyParams rfl
  obtain ⟨-, e₂, -, -, -, h₂, hmodel₂, -⟩ :=
    @hmerged [key "strategy", key "earnings"] gateEarningsParams rfl
  obtain ⟨-, e₃, -, -, -, h₃, -, -⟩ := @hmerged datesPath _ rfl
  obtain ⟨strategy, rfl⟩ := hmodel₁ _ _ rfl
  obtain ⟨earnings, rfl⟩ := hmodel₂ _ _ rfl
  have hstrategy : (changes.gates.elim params (deepMerge params)).lookup (key "strategy") =
      some (.object strategy) := by simpa using h₁
  have hearnings : strategy.lookup (key "earnings") = some (.object earnings) := by
    simpa [hstrategy] using h₂
  refine ⟨strategy, earnings, e₃, hstrategy, hearnings, ?_⟩
  simpa [datesPath, hstrategy, hearnings] using h₃

/-- At a leaf, what is sent or what was there. -/
theorem get?_patchedParams (hcheck : LeafCheck check hasType)
    (hparams : Filled check gateParams given (.object params))
    (hgates : ∀ gates ∈ changes.gates, GatesKnown gates) {path : Path} {type : LeafType}
    {default : Json.Value} (hleaf : gateParams.get? path = some (.leaf type default)) :
    ∃ e, (Json.Value.object params).get? path = some e ∧ hasType type e = true ∧
      (Json.Value.object (patchedParams params changes)).get? path =
        some ((changes.sent path).getD e) := by
  obtain ⟨e, e', given', he, hfilled, he', -, hvalue⟩ :=
    get?_mergedGates hcheck hparams hgates hleaf
  have htype := hfilled.leaf hcheck (Schema.wellFormed_get? wellFormed_gateParams hleaf)
  refine ⟨e, he, htype, ?_⟩
  have hvalue := hvalue type default rfl
  cases hdates : changes.dates with
  | none =>
    rw [patchedParams, hdates, Option.elim_none, he', hvalue, Changes.sent]
    by_cases hpath : path = datesPath
    · rw [if_pos hpath, hdates, Option.map_none, Option.getD_none]
      cases hg : changes.gates with
      | none => rfl
      | some gates => rw [hpath, Option.bind_some, (hgates gates hg).dates, Option.getD_none]
    · rw [if_neg hpath]
  | some values =>
    obtain ⟨strategy, earnings, dates, hstrategy, hearnings, hdatesLookup⟩ :=
      dates_of_merged hcheck hparams hgates
    rw [patchedParams, hdates, Option.elim_some,
      get?_setDates values hstrategy hearnings hdatesLookup hleaf, Changes.sent, hdates]
    by_cases hpath : path = datesPath
    · rw [if_pos hpath, if_pos hpath]
      rfl
    · rw [if_neg hpath, if_neg hpath, he', hvalue]

end Patched

/-! ## What is stored -/

section Stored

variable {env : Env}

theorem filled_of_parseParamsJson {raw e : Json.Value} (h : parseParamsJson env raw = some e) :
    ∃ given params, e = .object params ∧ Filled env.check gateParams given (.object params) := by
  have hfilled : ∃ given, Filled env.check gateParams given e := by
    have hdump : ∀ {v : Json.Value}, (modelDump env v).toOption = some e →
        ∃ given, Filled env.check gateParams given e := by
      intro v hv
      cases hok : modelDump env v with
      | ok w =>
        rw [hok] at hv
        obtain rfl := Option.some.inj hv
        exact ⟨some v, Or.inl ⟨v, rfl, hok⟩⟩
      | error err =>
        rw [hok] at hv
        cases hv
    unfold parseParamsJson at h
    split at h
    · exact hdump h
    · obtain ⟨v, -, hv⟩ := Option.bind_eq_some_iff.1 h
      split_ifs at hv
      · exact hdump hv
      · exact ⟨none, Or.inr ⟨rfl, (Option.some.inj hv).symm⟩⟩
    · exact ⟨none, Or.inr ⟨rfl, (Option.some.inj h).symm⟩⟩
  obtain ⟨given, hfilled⟩ := hfilled
  obtain ⟨params, rfl⟩ := model_lookup hfilled
  exact ⟨given, params, rfl, hfilled⟩

/-- What is read back of a column at a path is read back of what was there. -/
theorem jsonb_get? (houtside : Outside env) {v raw x : Json.Value} {path : Path}
    (h : env.jsonb v = .ok raw) (hx : v.get? path = some x) :
    ∃ y, raw.get? path = some y ∧ env.jsonb x = .ok y := by
  induction path generalizing v raw with
  | nil =>
    rw [Json.Value.get?_nil] at hx
    obtain rfl := Option.some.inj hx
    exact ⟨raw, Json.Value.get?_nil raw, h⟩
  | cons k path ih =>
    obtain ⟨members, u, rfl, hu, hx⟩ := Json.Value.get?_cons_eq_some hx
    obtain ⟨members', rfl, hmembers⟩ := houtside.object h
    obtain ⟨w, hw, hjsonb⟩ := (hmembers k).2 u hu
    obtain ⟨y, hy, hxy⟩ := ih hjsonb hx
    exact ⟨y, by rw [Json.Value.get?_object_cons, hw, Option.bind_some, hy], hxy⟩

/-- Limits that were stored are read as they were. -/
theorem reread (houtside : Outside env) {v dumped raw new : Json.Value}
    (hdumped : modelDump env v = .ok dumped) (hraw : env.jsonb dumped = .ok raw)
    (hnew : parseParamsJson env raw = some new) {path : Path} {type : LeafType}
    {default x : Json.Value} (hleaf : gateParams.get? path = some (.leaf type default))
    (hx : dumped.get? path = some x) (htype : hasType type x = true) :
    new.get? path = some x := by
  obtain ⟨members, rfl⟩ := model_lookup (Or.inl ⟨v, rfl, hdumped⟩)
  obtain ⟨members', rfl, -⟩ := houtside.object hraw
  have hvalid : modelDump env (.object members') = .ok new := by
    rw [parseParamsJson] at hnew
    cases hok : modelDump env (.object members') with
    | ok w =>
      rw [hok] at hnew
      rw [Option.some.inj hnew]
    | error err =>
      rw [hok] at hnew
      cases hnew
  obtain ⟨y, hy, hxy⟩ := jsonb_get? houtside hraw hx
  obtain ⟨x', hx', hfilled⟩ := Schema.validate_get? hvalid hleaf
  rw [hy] at hfilled
  rcases hfilled with ⟨w, hw, hcheck⟩ | ⟨hnone, -⟩
  · obtain rfl := Option.some.inj hw
    rw [Schema.validate, houtside.leaf htype hxy] at hcheck
    rw [hx', Except.ok.inj hcheck]
  · cases hnone

/-- Each leaf of the new limits is what was sent, checked, or what it was. -/
theorem limits_of_newParams (houtside : Outside env) {row : GateSet} {changes : Changes}
    {raw new : Json.Value} (hgates : ∀ gates ∈ changes.gates, GatesKnown gates)
    (hraw : newParams env row changes = .ok raw) (hnew : parseParamsJson env raw = some new) :
    ∃ old, parseParamsJson env row.params = some old ∧
      ∀ path type default, gateParams.get? path = some (.leaf type default) →
        ∃ x, new.get? path = some x ∧ (changes.sent path = none → old.get? path = some x) ∧
          ∀ q, changes.sent path = some q → env.check type q = .ok x := by
  unfold newParams at hraw
  split at hraw
  · cases hraw
  · rename_i old hold
    split at hraw
    · cases hraw
    · rename_i dumped hdumped
      refine ⟨old, hold, fun path type default hleaf => ?_⟩
      obtain ⟨given, params, rfl, hfilled⟩ := filled_of_parseParamsJson hold
      obtain ⟨e, he, htype, hpatched⟩ :=
        get?_patchedParams houtside.check hfilled hgates hleaf
      obtain ⟨x, hx, hfilledx⟩ := Schema.validate_get? hdumped hleaf
      rw [membersOf, hpatched] at hfilledx
      have hcheck : env.check type ((changes.sent path).getD e) = .ok x := by
        rcases hfilledx with ⟨w, hw, hcheck⟩ | ⟨hnone, -⟩
        · rw [Option.some.inj hw]
          exact hcheck
        · cases hnone
      refine ⟨x, reread houtside hdumped hraw hnew hleaf hx (houtside.check.typed hcheck), ?_, ?_⟩
      · intro hsent
        rw [hsent, Option.getD_none, houtside.check.keeps htype] at hcheck
        rw [he, Except.ok.inj hcheck]
      · intro q hsent
        rwa [hsent, Option.getD_some] at hcheck

end Stored

/-! ## The checks -/

section Checks

variable {fields : Json.Value} {members : Members} {changes : Changes}

theorem checkFields_ok {allowed : List String} {what : String}
    (h : checkFields fields allowed what = .ok members) :
    fields = .object members ∧ ∀ k ∈ members.map Prod.fst, k ∈ allowed.map key := by
  unfold checkFields at h
  split at h
  · dsimp only at h
    rw [if_refused_eq_ok_iff, if_refused_eq_ok_iff] at h
    obtain ⟨-, hunknown, h⟩ := h
    obtain rfl := Except.ok.inj h
    refine ⟨rfl, fun k hk => ?_⟩
    rw [not_not, List.filter_eq_nil_iff] at hunknown
    simpa using hunknown k hk
  · cases h

theorem checkPatch_ok (h : checkPatch fields = .ok changes) : ∃ members,
    fields = .object members ∧
    (∀ k ∈ members.map Prod.fst, k ∈ gateSafetyPatchable.map key) ∧
    checkColumns members = .ok changes.cells ∧ checkGates members = .ok changes.gates ∧
    checkDates members = .ok changes.dates := by
  obtain ⟨members, hmembers, h⟩ := bind_ok_iff.1 h
  obtain ⟨cells, hcells, h⟩ := bind_ok_iff.1 h
  obtain ⟨gates, hgates, h⟩ := bind_ok_iff.1 h
  obtain ⟨dates, hdates, h⟩ := bind_ok_iff.1 h
  obtain rfl := Except.ok.inj h
  obtain ⟨hfields, hknown⟩ := checkFields_ok hmembers
  exact ⟨members, hfields, hknown, hcells, hgates, hdates⟩

theorem get?_datesPath_of_namesDates {gates : Members} (h : namesDates gates = false) :
    (Json.Value.object gates).get? datesPath = none := by
  rw [Option.eq_none_iff_forall_ne_some]
  intro v hv
  obtain ⟨_, strategy, ⟨⟩, hstrategy, hv⟩ := Json.Value.get?_cons_eq_some hv
  obtain ⟨strategyMembers, earnings, rfl, hearnings, hv⟩ := Json.Value.get?_cons_eq_some hv
  obtain ⟨earningsMembers, dates, rfl, hdates, -⟩ := Json.Value.get?_cons_eq_some hv
  rw [namesDates, hstrategy, membersOf, hearnings, membersOf, hdates] at h
  cases h

/-- The gates that pass the checks. -/
theorem checkGates_ok {gates : Option Members} (h : checkGates members = .ok gates)
    (hdistinct : (Json.Value.object members).DistinctKeys) :
    members.lookup (key "gates") = gates.map .object ∧ ∀ g ∈ gates, GatesKnown g := by
  unfold checkGates at h
  split at h
  · rename_i hlookup
    obtain rfl := Except.ok.inj h
    exact ⟨hlookup, by simp⟩
  · rename_i g hlookup
    dsimp only at h
    rw [if_refused_eq_ok_iff, if_refused_eq_ok_iff] at h
    obtain ⟨hunknown, hdates, h⟩ := h
    obtain rfl := Except.ok.inj h
    refine ⟨hlookup, fun g' hg => ?_⟩
    obtain rfl := Option.some.inj hg
    exact ⟨⟨g, [], rfl, not_not.1 hunknown⟩,
      get?_datesPath_of_namesDates (by simpa using hdates),
      (Json.Value.distinctKeys_object_iff.1 hdistinct).2 _ _ hlookup⟩
  · cases h

theorem checkDates_ok {dates : Option (List (List ℕ))} (h : checkDates members = .ok dates) :
    (members.lookup (key "earnings_dates") = none ∧ dates = none) ∨
      ∃ v values, members.lookup (key "earnings_dates") = some v ∧
        patchEarningsDates v = .ok values ∧ dates = some values := by
  unfold checkDates at h
  split at h
  · exact Or.inl ⟨‹_›, (Except.ok.inj h).symm⟩
  · obtain ⟨values, hvalues, rfl⟩ := map_ok_iff.1 h
    exact Or.inr ⟨_, values, ‹_›, hvalues, rfl⟩

theorem mem_columns (c : Column) : c ∈ columns := by
  cases c with
  | dim d => cases d <;> decide
  | _ => decide

/-- Of the columns in a list, those that are sent are checked and written. -/
theorem checkedColumns_ok {cs : List Column} (hcs : cs.Nodup) {cells : List (Column × Json.Value)}
    (h : (cs.filterMap fun c => (members.lookup (key c.field)).map fun v => (c, v)).mapM
      (fun cv => (checkColumn cv.1 cv.2).map fun x => (cv.1, x)) = .ok cells) (c : Column) :
    (c ∉ cs ∨ members.lookup (key c.field) = none → cells.lookup c = none) ∧
      ∀ v, c ∈ cs → members.lookup (key c.field) = some v →
        ∃ x, checkColumn c v = .ok x ∧ cells.lookup c = some x := by
  induction cs generalizing cells with
  | nil =>
    obtain rfl := Except.ok.inj h
    simp
  | cons d cs ih =>
    rw [List.nodup_cons] at hcs
    cases hd : members.lookup (key d.field) with
    | none =>
      rw [List.filterMap_cons_none (by rw [hd]; rfl)] at h
      obtain ⟨hnone, hsome⟩ := ih hcs.2 h
      refine ⟨?_, fun v hc hv => ?_⟩
      · rintro (hc | hc)
        · exact hnone (Or.inl fun hmem => hc (List.mem_cons_of_mem d hmem))
        · exact hnone (Or.inr hc)
      · rcases List.mem_cons.1 hc with rfl | hmem
        · rw [hd] at hv
          cases hv
        · exact hsome v hmem hv
    | some w =>
      rw [List.filterMap_cons_some (by rw [hd]; rfl), List.mapM_cons] at h
      obtain ⟨cell, hcell, h⟩ := bind_ok_iff.1 h
      obtain ⟨rest, hrest, h⟩ := bind_ok_iff.1 h
      obtain rfl := Except.ok.inj h
      obtain ⟨x, hx, rfl⟩ := map_ok_iff.1 hcell
      obtain ⟨hnone, hsome⟩ := ih hcs.2 hrest
      by_cases hc : c = d
      · subst hc
        refine ⟨?_, fun v _ hv => ⟨x, ?_, List.lookup_cons_self⟩⟩
        · rintro (hnot | hnot)
          · exact absurd List.mem_cons_self hnot
          · rw [hd] at hnot
            cases hnot
        · obtain rfl := Option.some.inj (hd.symm.trans hv)
          exact hx
      · have hne : (c == d) = false := by simpa using hc
        rw [List.lookup_cons, hne]
        refine ⟨?_, fun v hmem hv => hsome v (List.mem_of_ne_of_mem hc hmem) hv⟩
        rintro (hnot | hnot)
        · exact hnone (Or.inl fun hmem => hnot (List.mem_cons_of_mem d hmem))
        · exact hnone (Or.inr hnot)

/-- Each column that is sent is checked, and no other is written. -/
theorem checkColumns_ok {cells : List (Column × Json.Value)}
    (h : checkColumns members = .ok cells) (c : Column) :
    (members.lookup (key c.field) = none → cells.lookup c = none) ∧
      ∀ v, members.lookup (key c.field) = some v →
        ∃ x, checkColumn c v = .ok x ∧ cells.lookup c = some x := by
  obtain ⟨hnone, hsome⟩ := checkedColumns_ok (by decide) h c
  exact ⟨fun hlookup => hnone (Or.inr hlookup), fun v => hsome v (mem_columns c)⟩

end Checks

end Portfolio.GateSafety
