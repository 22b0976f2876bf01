import BifrostTrade.Portfolio.GateSafetyStored

/-!
# What a patch of a gate set changes

A patch that is refused writes nothing, and one that names an unknown key is refused.  Otherwise
each leaf of the set that the patch names has the value that was sent, checked, and each other leaf
reads as before.  The gates of a read, sent back, change nothing (`patchGateSafety_law`).
-/

namespace Portfolio.GateSafety

open Py
open Py.Json (Members Path setKey get?_setKey_below)
open Py.Schema (Filled LeafCheck)

/-! ## The law -/

/-- A leaf of a gate set: one of its columns, or a leaf of the limits. -/
inductive Leaf where
  | column (c : Column)
  | limit (path : Path)

/-- The schema has this leaf. -/
def Leaf.IsLeaf : Leaf → Prop
  | .column _ => True
  | .limit path => ∃ type default, gateParams.get? path = some (.leaf type default)

/-- The value of a leaf, stored or by default. -/
def effective (env : Env) (row : GateSet) : Leaf → Option Json.Value
  | .column c => some (row.cells c)
  | .limit path => (parseParamsJson env row.params).bind fun params => params.get? path

/-- The value that a patch names for a leaf. -/
def named (fields : Json.Value) : Leaf → Option Json.Value
  | .column c => fields.get? [key c.field]
  | .limit path =>
      if path = datesPath then fields.get? [key "earnings_dates"]
      else fields.get? (key "gates" :: path)

/-- What the check of a leaf makes of the value that was named. -/
def Validates (env : Env) : Leaf → Json.Value → Json.Value → Prop
  | .column c, q, x => checkColumn c q = .ok x
  | .limit path, q, x =>
      if path = datesPath then
        ∃ values, patchEarningsDates q = .ok values ∧ x = .array (values.map .text)
      else ∃ type default, gateParams.get? path = some (.leaf type default) ∧
        env.check type q = .ok x

/-- The paths of keys that a patch may name. -/
def KnownPath : Path → Prop
  | [] => True
  | [k] => k ∈ gateSafetyPatchable.map key
  | k :: path => k = key "gates" ∧ ∃ s, gateParams.get? path = some s

/-- A patch is refused and writes nothing, or changes the leaves that it names. -/
structure PatchLaw (env : Env) (table : Gates) (id : ℤ) (fields : Json.Value) : Prop where
  refused : ∀ e, (patchGateSafety env table id fields).1 = .error e →
    (patchGateSafety env table id fields).2 = table
  unknown : ∀ path q, fields.get? path = some q → ¬ KnownPath path →
    ∃ e, (patchGateSafety env table id fields).1 = .error e
  others : ∀ other, other ≠ id →
    (patchGateSafety env table id fields).2.get other = table.get other
  changed : ∀ read, (patchGateSafety env table id fields).1 = .ok read →
    ∃ row row', table.get id = some row ∧
      (patchGateSafety env table id fields).2.get id = some row' ∧ readFull env row' = some read ∧
      ∀ leaf : Leaf, leaf.IsLeaf →
        (named fields leaf = none → effective env row' leaf = effective env row leaf) ∧
        ∀ q, named fields leaf = some q →
          ∃ x, Validates env leaf q x ∧ effective env row' leaf = some x

/-- A patch with the gates of a read. -/
def sentBack (read : GateSetRead) : Json.Value := .object [(key "gates", read.gates)]

/-- The gates of a read, sent back, change no leaf. -/
def SentBackLaw (env : Env) (table : Gates) (id : ℤ) : Prop :=
  ∀ row read answer, table.get id = some row → readFull env row = some read →
    (patchGateSafety env table id (sentBack read)).1 = .ok answer →
    ∃ row', (patchGateSafety env table id (sentBack read)).2.get id = some row' ∧
      ∀ leaf : Leaf, leaf.IsLeaf → effective env row' leaf = effective env row leaf

/-! ## The write -/

section Write

variable {env : Env} {table : Gates} {id : ℤ} {fields : Json.Value} {read : GateSetRead}

theorem get_update (cells : List (Column × Json.Value)) (params : Option Json.Value) (other : ℤ) :
    (update table id cells params).get other = (table.get other).map fun row =>
      if row.id = id then row.patched cells params else row :=
  Sql.Table.get_update

theorem readFull_of_readBack {row : GateSet} {cells : List (Column × Json.Value)}
    {params : Option Json.Value} (hrow : table.get id = some row)
    (h : readBack env (update table id cells params) id = some read) :
    readFull env (row.patched cells params) = some read := by
  have hid : row.id = id := (Sql.Table.get_eq_some_iff.1 hrow).2
  unfold readBack at h
  split_ifs at h
  rwa [get_update, hrow, Option.map_some, if_pos hid, Option.bind_some] at h

theorem patchTransaction_ok {changes : Changes} {updated : Gates}
    (h : patchTransaction env table id changes = .ok (read, updated)) :
    ∃ row params, table.get id = some row ∧ writtenParams env table id changes = .ok params ∧
      updated = update table id changes.cells params ∧
      readFull env (row.patched changes.cells params) = some read := by
  obtain ⟨params, hparams, h⟩ := bind_ok_iff.1 h
  obtain ⟨-, -, h⟩ := bind_ok_iff.1 h
  split at h
  · cases h
  · rename_i row hrow
    dsimp only at h
    split at h
    · cases h
    · rename_i read' hread
      obtain ⟨-, -, h⟩ := bind_ok_iff.1 h
      obtain ⟨rfl, rfl⟩ := Prod.mk.inj (Except.ok.inj h)
      exact ⟨row, params, hrow, hparams, rfl, readFull_of_readBack hrow hread⟩

/-- What a patch that succeeds did. -/
theorem patched_cases (h : (patchGateSafety env table id fields).1 = .ok read) :
    ∃ changes row params, checkPatch fields = .ok changes ∧ table.get id = some row ∧
      writtenParams env table id changes = .ok params ∧
      (patchGateSafety env table id fields).2 = update table id changes.cells params ∧
      readFull env (row.patched changes.cells params) = some read := by
  unfold patchGateSafety at h ⊢
  split at h
  · cases h
  · rename_i changes hchanges
    split at h
    · cases h
    · rename_i read' updated hok
      obtain rfl := Except.ok.inj h
      obtain ⟨-, -, htransaction⟩ := bind_ok_iff.1 hok
      obtain ⟨row, params, hrow, hparams, rfl, hread⟩ := patchTransaction_ok htransaction
      exact ⟨changes, row, params, hchanges, hrow, hparams, rfl, hread⟩

theorem refused_unchanged {e : WriteError}
    (h : (patchGateSafety env table id fields).1 = .error e) :
    (patchGateSafety env table id fields).2 = table := by
  unfold patchGateSafety at h ⊢
  split at h
  · rfl
  · split at h
    · rfl
    · cases h

end Write

/-! ## The leaves -/

section Leaves

variable {env : Env} {table : Gates} {id : ℤ} {fields : Json.Value} {changes : Changes}
  {row : GateSet} {params : Option Json.Value} {read : GateSetRead}

/-- What is sent for a leaf of the limits is what the patch names for it. -/
theorem sent_of_checkPatch (hchanges : checkPatch fields = .ok changes)
    (hfields : fields.DistinctKeys) (path : Path) :
    (named fields (.limit path) = none → changes.sent path = none) ∧
      ∀ q, named fields (.limit path) = some q →
        if path = datesPath then ∃ values, patchEarningsDates q = .ok values ∧
          changes.sent path = some (.array (values.map .text))
        else changes.sent path = some q := by
  obtain ⟨members, rfl, -, -, hgates, hdates⟩ := checkPatch_ok hchanges
  obtain ⟨hgates, -⟩ := checkGates_ok hgates hfields
  rw [named, Changes.sent]
  split_ifs with hpath
  · rw [Json.Value.get?_object_cons]
    rcases checkDates_ok hdates with ⟨hlookup, hnone⟩ | ⟨v, values, hlookup, hvalues, hsome⟩
    · simp [hlookup, hnone]
    · simp [hlookup, hsome, hvalues]
  · rw [Json.Value.get?_object_cons, hgates]
    cases changes.gates <;> simp

/-- The leaves of the limits after a patch. -/
theorem limit_of_patched (houtside : Outside env) (hfields : fields.DistinctKeys)
    (hchanges : checkPatch fields = .ok changes) (hrow : table.get id = some row)
    (hparams : writtenParams env table id changes = .ok params)
    (hread : readFull env (row.patched changes.cells params) = some read) {path : Path}
    {type : LeafType} {default : Json.Value}
    (hleaf : gateParams.get? path = some (.leaf type default)) :
    ∃ x, effective env (row.patched changes.cells params) (.limit path) = some x ∧
      (changes.sent path = none → effective env row (.limit path) = some x) ∧
      ∀ q, changes.sent path = some q → env.check type q = .ok x := by
  obtain ⟨new, hnew, -⟩ := Option.map_eq_some_iff.1 hread
  have hgates : ∀ gates ∈ changes.gates, GatesKnown gates := by
    obtain ⟨members, rfl, -, -, hgates, -⟩ := checkPatch_ok hchanges
    exact (checkGates_ok hgates hfields).2
  unfold writtenParams at hparams
  split_ifs at hparams with hnothing
  · obtain rfl := Except.ok.inj hparams
    obtain ⟨hnoGates, hnoDates⟩ := hnothing
    rw [Option.isNone_iff_eq_none] at hnoGates hnoDates
    have hsent : changes.sent path = none := by
      rw [Changes.sent, hnoGates, hnoDates]
      split_ifs <;> rfl
    obtain ⟨given, old, rfl, hfilled⟩ := filled_of_parseParamsJson hnew
    obtain ⟨x, -, hx, -⟩ := hfilled.get? hleaf
    have heffective : effective env row (.limit path) = some x := by
      rw [effective, show parseParamsJson env row.params = _ from hnew, Option.bind_some, hx]
    refine ⟨x, heffective, fun _ => heffective, fun q hq => ?_⟩
    rw [hsent] at hq
    cases hq
  · obtain ⟨-, -, hparams⟩ := bind_ok_iff.1 hparams
    rw [hrow] at hparams
    obtain ⟨raw, hraw, rfl⟩ := map_ok_iff.1 hparams
    obtain ⟨old, hold, hlimits⟩ := limits_of_newParams houtside hgates hraw hnew
    obtain ⟨x, hx, hkept, hchanged⟩ := hlimits path type default hleaf
    refine ⟨x, ?_, fun hsent => ?_, hchanged⟩
    · rw [effective, hnew, Option.bind_some, hx]
    · rw [effective, hold, Option.bind_some, hkept hsent]

theorem cells_patched (cells : List (Column × Json.Value)) (c : Column) :
    (row.patched cells params).cells c = (cells.lookup c).getD (row.cells c) := rfl

/-- Each leaf after a patch is the named value, checked, or reads as before. -/
theorem leaf_of_patched (houtside : Outside env) (hfields : fields.DistinctKeys)
    (hchanges : checkPatch fields = .ok changes) (hrow : table.get id = some row)
    (hparams : writtenParams env table id changes = .ok params)
    (hread : readFull env (row.patched changes.cells params) = some read) (leaf : Leaf)
    (hleaf : leaf.IsLeaf) :
    (named fields leaf = none →
      effective env (row.patched changes.cells params) leaf = effective env row leaf) ∧
    ∀ q, named fields leaf = some q → ∃ x, Validates env leaf q x ∧
      effective env (row.patched changes.cells params) leaf = some x := by
  cases leaf with
  | column c =>
    obtain ⟨members, rfl, -, hcells, -, -⟩ := checkPatch_ok hchanges
    obtain ⟨hnone, hsome⟩ := checkColumns_ok hcells c
    have hnamed : named (.object members) (.column c) = members.lookup (key c.field) := by
      rw [named, Json.Value.get?_object_cons]
      cases members.lookup (key c.field) <;> simp
    rw [hnamed]
    refine ⟨fun hlookup => ?_, fun q hq => ?_⟩
    · rw [effective, effective, cells_patched, hnone hlookup, Option.getD_none]
    · obtain ⟨x, hx, hlookup⟩ := hsome q hq
      exact ⟨x, hx, by rw [effective, cells_patched, hlookup, Option.getD_some]⟩
  | limit path =>
    obtain ⟨type, default, hleaf⟩ := hleaf
    obtain ⟨hsentNone, hsentSome⟩ := sent_of_checkPatch hchanges hfields path
    obtain ⟨x, hx, hkept, hchanged⟩ :=
      limit_of_patched houtside hfields hchanges hrow hparams hread hleaf
    refine ⟨fun hnone => by rw [hx, hkept (hsentNone hnone)], fun q hq => ⟨x, ?_, hx⟩⟩
    have hsent := hsentSome q hq
    rw [Validates]
    split_ifs at hsent ⊢ with hpath
    · obtain ⟨values, hvalues, hsent⟩ := hsent
      refine ⟨values, hvalues, ?_⟩
      have htype : hasType .strings (.array (values.map .text)) = true := by
        simp [hasType, isText]
      obtain rfl : LeafType.strings = type := by
        subst hpath
        exact (Schema.leaf.inj (Option.some.inj hleaf)).1
      exact Except.ok.inj ((hchanged _ hsent).symm.trans (houtside.check.keeps htype))
    · exact ⟨type, default, hleaf, hchanged q hsent⟩

end Leaves

/-! ## Unknown keys -/

/-- No column takes an object. -/
theorem checkColumn_object {c : Column} {members : Members} {x : Json.Value} :
    checkColumn c (.object members) ≠ .ok x := by
  intro h
  cases c <;> rw [checkColumn] at h
  case dim d =>
    obtain ⟨_, ht, -⟩ := bind_ok_iff.1 h
    cases ht
  all_goals
    obtain ⟨_, ht, -⟩ := map_ok_iff.1 h
    cases ht

theorem patchEarningsDates_object {members : Members} {values : List (List ℕ)} :
    patchEarningsDates (.object members) ≠ .ok values := by
  intro h
  obtain ⟨_, hitems, -⟩ := bind_ok_iff.1 h
  cases hitems

section Unknown

variable {env : Env} {table : Gates} {id : ℤ} {fields : Json.Value} {read : GateSetRead}

/-- A patch that is not refused names known paths. -/
theorem knownPath_of_ok (houtside : Outside env) (hfields : fields.DistinctKeys)
    (h : (patchGateSafety env table id fields).1 = .ok read) {path : Path} {q : Json.Value}
    (hq : fields.get? path = some q) : KnownPath path := by
  obtain ⟨changes, row, params, hchanges, hrow, hparams, -, hread⟩ := patched_cases h
  obtain ⟨members, rfl, hkeys, hcells, hgates, hdates⟩ := checkPatch_ok hchanges
  cases path with
  | nil => trivial
  | cons k path =>
    obtain ⟨_, v, ⟨⟩, hv, hq⟩ := Json.Value.get?_cons_eq_some hq
    have hk : k ∈ gateSafetyPatchable.map key := by
      obtain ⟨l, l', rfl, -⟩ := List.lookup_eq_some_iff.1 hv
      exact hkeys k (by simp)
    cases path with
    | nil => exact hk
    | cons k₂ path =>
      obtain ⟨inner, _, rfl, -, -⟩ := Json.Value.get?_cons_eq_some hq
      rw [gateSafetyPatchable, List.map_append, List.mem_append] at hk
      rcases hk with hcolumn | hk
      · obtain ⟨_, hname, rfl⟩ := List.mem_map.1 hcolumn
        obtain ⟨c, -, rfl⟩ := List.mem_map.1 hname
        obtain ⟨x, hx, -⟩ := (checkColumns_ok hcells c).2 _ hv
        exact absurd hx checkColumn_object
      · rcases List.mem_cons.1 hk with rfl | hk
        · obtain ⟨hlookup, hgatesKnown⟩ := checkGates_ok hgates hfields
          obtain ⟨g, hg, hobject⟩ := Option.map_eq_some_iff.1 (hlookup.symm.trans hv)
          obtain rfl := Json.Value.object.inj hobject
          obtain ⟨hknown, hnoDates, -⟩ := hgatesKnown g hg
          rcases known_or_below_leaf hknown hq with hs | ⟨above, k', below, type, default, ms, -,
            hleaf, habove⟩
          · exact ⟨rfl, hs⟩
          · -- the value of the leaf would be an object, which its check does not take
            have hne : above ≠ datesPath := by
              rintro rfl
              rw [hnoDates] at habove
              cases habove
            have hsent : changes.sent above = some (.object ms) := by
              rw [Changes.sent, if_neg hne, hg, Option.bind_some, habove]
            obtain ⟨x, -, -, hchecked⟩ :=
              limit_of_patched houtside hfields hchanges hrow hparams hread hleaf
            exact absurd (hchecked _ hsent) houtside.check.refuses
        · obtain rfl := List.mem_singleton.1 hk
          rcases checkDates_ok hdates with ⟨hnone, -⟩ | ⟨_, values, hsome, hvalues, -⟩
          · rw [hv] at hnone
            cases hnone
          · obtain rfl := Option.some.inj (hv.symm.trans hsome)
            exact absurd hvalues patchEarningsDates_object

end Unknown

/-! ## The gates of a read -/

section Back

variable {env : Env} {given : Option Json.Value} {params : Members}

theorem objects_of_filled (hparams : Filled env.check gateParams given (.object params)) :
    ∃ strategy earnings, params.lookup (key "strategy") = some (.object strategy) ∧
      strategy.lookup (key "earnings") = some (.object earnings) := by
  obtain ⟨_, _, h₁, hfilled₁⟩ :=
    hparams.get? (show gateParams.get? [key "strategy"] = some gateStrategyParams from rfl)
  obtain ⟨strategy, rfl⟩ := model_lookup hfilled₁
  have hstrategy : params.lookup (key "strategy") = some (.object strategy) := by simpa using h₁
  obtain ⟨_, _, h₂, hfilled₂⟩ := hfilled₁.get?
    (show gateStrategyParams.get? [key "earnings"] = some gateEarningsParams from rfl)
  obtain ⟨earnings, rfl⟩ := model_lookup hfilled₂
  exact ⟨strategy, earnings, hstrategy, by simpa using h₂⟩

/-- At a leaf, the gates of a read are the limits without the dates. -/
theorem get?_splitEarningsDates (hparams : Filled env.check gateParams given (.object params))
    {path : Path} {type : LeafType} {default : Json.Value}
    (hleaf : gateParams.get? path = some (.leaf type default)) :
    (Json.Value.object (splitEarningsDates params).1).get? path =
      if path = datesPath then none else (Json.Value.object params).get? path := by
  obtain ⟨strategy, earnings, hstrategy, hearnings⟩ := objects_of_filled hparams
  simp only [splitEarningsDates, hstrategy, hearnings]
  refine get?_setKey_below hstrategy (leaf_ne_nil hleaf) ?_
  rintro below rfl
  have hstrategyLeaf : gateStrategyParams.get? below = some (.leaf type default) := hleaf
  refine get?_setKey_below hearnings (leaf_ne_nil hstrategyLeaf) ?_
  rintro below rfl
  have hearningsLeaf : gateEarningsParams.get? below = some (.leaf type default) := hstrategyLeaf
  cases below with
  | nil => cases hearningsLeaf
  | cons k below =>
    rw [Json.Value.get?_object_cons, Json.Value.get?_object_cons, Json.lookup_filter_ne]
    by_cases hk : k = key "dates"
    · subst hk
      -- the dates are a leaf, so nothing is below them
      cases below with
      | nil => simp
      | cons k below => cases hearningsLeaf
    · rw [if_neg hk, if_neg fun heq => hk (List.cons.inj heq).1]

theorem distinctKeys_splitEarningsDates (h : (Json.Value.object params).DistinctKeys) :
    (Json.Value.object (splitEarningsDates params).1).DistinctKeys := by
  unfold splitEarningsDates
  split
  · rename_i strategy hstrategy
    have hdistinct := (Json.Value.distinctKeys_object_iff.1 h).2 _ _ hstrategy
    split
    · rename_i earnings hearnings
      have hearningsDistinct := (Json.Value.distinctKeys_object_iff.1 hdistinct).2 _ _ hearnings
      exact h.setKey (hdistinct.setKey (hearningsDistinct.filter (key "dates")))
    · exact h
  · exact h

/-- The gates of a read. -/
theorem readFull_gates {row : GateSet} {read : GateSetRead} (h : readFull env row = some read) :
    ∃ given params, parseParamsJson env row.params = some (.object params) ∧
      Filled env.check gateParams given (.object params) ∧
      read.gates = .object (splitEarningsDates params).1 := by
  obtain ⟨e, he, rfl⟩ := Option.map_eq_some_iff.1 h
  obtain ⟨given, params, rfl, hfilled⟩ := filled_of_parseParamsJson he
  exact ⟨given, params, he, hfilled, rfl⟩

theorem distinctKeys_sentBack (houtside : Outside env) {row : GateSet} {read : GateSetRead}
    (h : readFull env row = some read) : (sentBack read).DistinctKeys := by
  obtain ⟨given, params, -, hfilled, hgates⟩ := readFull_gates h
  refine Json.Value.distinctKeys_object_iff.2 ⟨List.nodup_singleton _, fun k v hv => ?_⟩
  rw [List.lookup_cons, List.lookup_nil] at hv
  split at hv
  · obtain rfl := Option.some.inj hv
    rw [hgates]
    exact distinctKeys_splitEarningsDates
      (hfilled.distinctKeys houtside.check wellFormed_gateParams)
  · cases hv

/-- What the gates of a read name for a leaf is what the leaf was. -/
theorem named_sentBack {row : GateSet} {read : GateSetRead} (h : readFull env row = some read)
    {leaf : Leaf} (hleaf : leaf.IsLeaf) {q : Json.Value}
    (hq : named (sentBack read) leaf = some q) :
    effective env row leaf = some q ∧ ∃ path, leaf = .limit path ∧ path ≠ datesPath := by
  obtain ⟨given, params, hparse, hfilled, hgates⟩ := readFull_gates h
  cases leaf with
  | column c =>
    exfalso
    have hne : ∀ c : Column, (key c.field == key "gates") = false := by
      intro c
      cases c with
      | dim d => cases d <;> decide
      | _ => decide
    rw [named, sentBack, Json.Value.get?_object_cons, List.lookup_cons, hne c] at hq
    cases hq
  | limit path =>
    obtain ⟨type, default, hleaf⟩ := hleaf
    rw [named, sentBack] at hq
    split_ifs at hq with hpath
    · have hne : (key "earnings_dates" == key "gates") = false := by decide
      rw [Json.Value.get?_object_cons, List.lookup_cons, hne] at hq
      cases hq
    · rw [Json.Value.get?_object_cons, List.lookup_cons_self, Option.bind_some, hgates,
        get?_splitEarningsDates hfilled hleaf, if_neg hpath] at hq
      refine ⟨?_, path, rfl, hpath⟩
      rw [effective, hparse, Option.bind_some, hq]

end Back

/-! ## The result -/

theorem sentBackLaw {env : Env} (houtside : Outside env) (table : Gates) (id : ℤ) :
    SentBackLaw env table id := by
  intro row read answer hrow hread hanswer
  obtain ⟨changes, row', params, hchanges, hrow', hparams, htable, hanswerRead⟩ :=
    patched_cases hanswer
  obtain rfl := Option.some.inj (hrow.symm.trans hrow')
  have hid : row.id = id := (Sql.Table.get_eq_some_iff.1 hrow).2
  refine ⟨row.patched changes.cells params, ?_, fun leaf hleaf => ?_⟩
  · rw [htable, get_update, hrow, Option.map_some, if_pos hid]
  · obtain ⟨hkept, hchanged⟩ := leaf_of_patched houtside (distinctKeys_sentBack houtside hread)
      hchanges hrow hparams hanswerRead leaf hleaf
    cases hnamed : named (sentBack read) leaf with
    | none => exact hkept hnamed
    | some q =>
      obtain ⟨x, hx, heffective⟩ := hchanged q hnamed
      obtain ⟨hold, path, rfl, hpath⟩ := named_sentBack hread hleaf hnamed
      rw [Validates, if_neg hpath] at hx
      obtain ⟨type, default, hget, hcheck⟩ := hx
      obtain ⟨given, old, hparse, hfilled, -⟩ := readFull_gates hread
      have htype : hasType type q = true := by
        obtain ⟨e, _, he, hfilledLeaf⟩ := hfilled.get? hget
        rw [effective, hparse, Option.bind_some, he] at hold
        rw [← Option.some.inj hold]
        exact hfilledLeaf.leaf houtside.check (Schema.wellFormed_get? wellFormed_gateParams hget)
      rw [heffective, hold, Except.ok.inj ((houtside.check.keeps htype).symm.trans hcheck)]

/-- A patch of a gate set changes only what it names, and the gates of a read change nothing. -/
theorem patchGateSafety_law {env : Env} (houtside : Outside env) (table : Gates) (id : ℤ)
    {fields : Json.Value} (hfields : fields.DistinctKeys) :
    PatchLaw env table id fields ∧ SentBackLaw env table id := by
  refine ⟨⟨fun e he => refused_unchanged he, fun path q hq hunknown => ?_, fun other hother => ?_,
    fun read hread => ?_⟩, sentBackLaw houtside table id⟩
  · cases h : (patchGateSafety env table id fields).1 with
    | error e => exact ⟨e, rfl⟩
    | ok read => exact absurd (knownPath_of_ok houtside hfields h hq) hunknown
  · cases h : (patchGateSafety env table id fields).1 with
    | error e => rw [refused_unchanged h]
    | ok read =>
      obtain ⟨changes, row, params, -, -, -, htable, -⟩ := patched_cases h
      rw [htable, get_update]
      cases hget : table.get other with
      | none => rfl
      | some r =>
        have hne : r.id ≠ id := by
          rw [(Sql.Table.get_eq_some_iff.1 hget).2]
          exact hother
        rw [Option.map_some, if_neg hne]
  · obtain ⟨changes, row, params, hchanges, hrow, hparams, htable, hfull⟩ := patched_cases hread
    have hid : row.id = id := (Sql.Table.get_eq_some_iff.1 hrow).2
    refine ⟨row, row.patched changes.cells params, hrow, ?_, hfull, fun leaf hleaf =>
      leaf_of_patched houtside hfields hchanges hrow hparams hfull leaf hleaf⟩
    rw [htable, get_update, hrow, Option.map_some, if_pos hid]

/-! ## A set of defaults -/

/-- Where each leaf takes the values of its type alone, columns are read as written and nothing
fails. -/
def plainEnv : Env where
  check type v :=
    if hasType type v = true then .ok v else .error ⟨[], "Input should be of the declared type"⟩
  jsonb := .ok
  fault _ := none

theorem plainEnv_check {type : LeafType} {v w : Json.Value} (h : plainEnv.check type v = .ok w) :
    hasType type v = true ∧ v = w := by
  rw [plainEnv] at h
  dsimp only at h
  split_ifs at h with htype
  exact ⟨htype, Except.ok.inj h⟩

theorem hasType_isObject {type : LeafType} {w : Json.Value} (h : hasType type w = true) :
    w.isObject = false := by
  cases w with
  | object members => cases type <;> cases h
  | _ => rfl

theorem outside_plainEnv : Outside plainEnv where
  check :=
    { typed := fun h => by
        obtain ⟨htype, rfl⟩ := plainEnv_check h
        exact htype
      keeps := fun h => if_pos h
      isObject := hasType_isObject
      refuses := fun h => by cases hasType_isObject (plainEnv_check h).1 }
  object := fun h => by
    obtain rfl := Except.ok.inj h
    exact ⟨_, rfl, fun k => ⟨id, fun x hx => ⟨x, hx, rfl⟩⟩⟩
  leaf := fun htype h => by
    obtain rfl := Except.ok.inj h
    exact if_pos htype

/-- A gate set whose limits have their defaults. -/
def defaultGates : Gates :=
  Sql.Table.empty.insertOrIgnore ⟨1, fun _ => .null, .object []⟩

/-- `{"gates": {"guard": {"risk": {"paper_trade": false}}}}`. -/
def paperTradeOff : Json.Value :=
  .object [(key "gates", .object [(key "guard", .object [(key "risk",
    .object [(key "paper_trade", .bool false)])])])]

theorem distinctKeys_singleton {k : List ℕ} {v : Json.Value} (h : v.DistinctKeys) :
    (Json.Value.object [(k, v)]).DistinctKeys := by
  refine Json.Value.distinctKeys_object_iff.2 ⟨List.nodup_singleton k, fun key w hw => ?_⟩
  rw [List.lookup_cons, List.lookup_nil] at hw
  split at hw
  · rwa [← Option.some.inj hw]
  · cases hw

theorem distinctKeys_paperTradeOff : paperTradeOff.DistinctKeys :=
  distinctKeys_singleton <| distinctKeys_singleton <| distinctKeys_singleton <|
    distinctKeys_singleton <| Json.Value.distinctKeys_of_isObject_eq_false rfl

theorem patchGateSafety_law_paperTrade :
    (PatchLaw plainEnv defaultGates 1 paperTradeOff ∧ SentBackLaw plainEnv defaultGates 1) ∧
      (patchGateSafety plainEnv defaultGates 1 paperTradeOff).1.toOption.isSome = true :=
  ⟨patchGateSafety_law outside_plainEnv defaultGates 1 distinctKeys_paperTradeOff,
    by decide +kernel⟩

end Portfolio.GateSafety
