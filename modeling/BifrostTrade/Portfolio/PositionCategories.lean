import BifrostTrade.Lib.Runs
import BifrostTrade.Portfolio.StrategyPlan

/-!
# Position categories

The strict writers of `portfolio/reader/position_categories.py` and the tables they write: the
categories, the symbol orders, which are kept under the name of a category, and the tags and
watchlist rows that name one.  Every call is one transaction.  The timestamps are left out.
-/

namespace Portfolio.PositionCategories

open Py Portfolio.Plan Runs

/-! ## The tables -/

/-- A row of the categories. -/
structure CategoryRow where
  id : ℤ
  name : String
  description : Option String
  sortOrder : Option ℤ
  deriving DecidableEq

/-- The primary key and `preference_position_categories_name_uq`. -/
def CategoryRow.clash (r s : CategoryRow) : Prop := r.id = s.id ∨ r.name = s.name

instance : DecidableRel CategoryRow.clash := fun _ _ => inferInstanceAs (Decidable (_ ∨ _))

theorem CategoryRow.clash_symm (r s : CategoryRow) (h : r.clash s) : s.clash r :=
  h.imp Eq.symm Eq.symm

/-- A row of `preference_market_streams_symbol_order`. -/
structure OrderRow where
  categoryName : String
  symbol : String
  sortOrder : ℤ
  deriving DecidableEq

/-- The primary key. -/
def OrderRow.clash (r s : OrderRow) : Prop :=
  r.categoryName = s.categoryName ∧ r.symbol = s.symbol

instance : DecidableRel OrderRow.clash := fun _ _ => inferInstanceAs (Decidable (_ ∧ _))

/-- The table of the symbol orders. -/
abbrev OrderTable := Sql.Store OrderRow.clash

/-- A position tagged with a category. -/
structure TagRow where
  accountId : String
  contractKey : String
  categoryId : ℤ

/-- The categories and what refers to them. -/
structure Db where
  categories : Sql.Store CategoryRow.clash
  orders : OrderTable
  tags : List TagRow
  /-- The category of each watchlist row. -/
  watchlist : List (Option ℤ)

/-- The symbols stored under a name, with their places. -/
def orderOf (orders : OrderTable) (name : String) : List (String × ℤ) :=
  (orders.rows.filter fun r => r.categoryName = name).map fun r => (r.symbol, r.sortOrder)

/-! ## Names -/

/-- The name that stands for no category. -/
def uncategorized : String := "Uncategorized"

/-- `str.casefold` for one character, as far as the result has ASCII letters in it. -/
def casefoldChar (c : Char) : List Char :=
  match c.toNat with
  | 0xDF => ['s', 's']
  | 0x149 => [Char.ofNat 0x2BC, 'n']
  | 0x17F => ['s']
  | 0x1F0 => ['j', Char.ofNat 0x30C]
  | 0x1E96 => ['h', Char.ofNat 0x331]
  | 0x1E97 => ['t', Char.ofNat 0x308]
  | 0x1E98 => ['w', Char.ofNat 0x30A]
  | 0x1E99 => ['y', Char.ofNat 0x30A]
  | 0x1E9A => ['a', Char.ofNat 0x2BE]
  | 0x1E9E => ['s', 's']
  | 0xFB00 => ['f', 'f']
  | 0xFB01 => ['f', 'i']
  | 0xFB02 => ['f', 'l']
  | 0xFB03 => ['f', 'f', 'i']
  | 0xFB04 => ['f', 'f', 'l']
  | 0xFB05 => ['s', 't']
  | 0xFB06 => ['s', 't']
  | _ => lowerChar c

/-- `str.casefold()`. -/
def casefold (s : String) : String := String.ofList (s.toList.flatMap casefoldChar)

/-- A name that is kept for positions without a category. -/
def Reserved (name : String) : Prop := casefold (strip name) = casefold uncategorized

instance : DecidablePred Reserved := fun _ => inferInstanceAs (Decidable (_ = _))

/-- `check_category_name`. -/
def checkCategoryName (name : String) : Except PlanError String :=
  if Reserved name then
    .error (.invalid ("'" ++ strip name ++
      "' is reserved for positions without a category; choose another name."))
  else .ok name

/-- `_refuse_taken_name`. -/
def refuseTakenName (db : Db) (name : String) (categoryId : Option ℤ) : Except PlanError Unit :=
  if db.categories.rows.any fun r => r.name = name ∧ some r.id ≠ categoryId then
    .error (.conflict ("A position category named '" ++ name ++ "' already exists."))
  else .ok ()

/-- `_carry_symbol_order`: the order under the new name, or dropped without one, and the number of
rows moved or dropped. -/
def carrySymbolOrder (orders : OrderTable) (oldName : String) (newName : Option String) :
    Option (OrderTable × ℕ) :=
  if oldName = "" ∨ newName = some oldName then some (orders, 0)
  else
    let moved := (orderOf orders oldName).length
    match newName with
    | none => some (orders.delete fun r => r.categoryName = oldName, moved)
    | some new =>
        ((orders.delete fun r => r.categoryName = new).update?
          (fun r => r.categoryName = oldName) fun r => { r with categoryName := new }).map
          fun orders => (orders, moved)

/-! ## Values -/

/-- `ws.integer` of a nullable column without a minimum. -/
def wsWholeNumber (value : PayloadValue) (name : String) : Except PlanError (Option ℤ) :=
  match value with
  | .null => .ok none
  | .int n => .ok (some n)
  | .float (.fin x) =>
      if x.den = 1 then .ok (some x.num) else invalid name " must be a whole number."
  | .text s =>
      let digits := (strip s).toList.dropWhile fun c => c = '-'
      -- a text of digits that `int()` does not take raises
      if digits ≠ [] ∧ digits.all isDigit then (orFailed (parseInt (strip s))).map some
      else invalid name " must be a whole number."
  | _ => invalid name " must be a whole number."

/-- A text that the database takes. -/
def storedText (s : String) : Except PlanError String :=
  if Char.ofNat 0 ∈ s.toList then .error .failed else .ok s

/-- A description and a sort order that the database takes. -/
def checkStored (what : String) (description : Option String) (sortOrder : Option ℤ) :
    Except PlanError Unit :=
  (storedText (textOrEmpty description)).bind fun _ =>
    if ∃ n ∈ sortOrder, n < -2147483648 ∨ 2147483647 < n then
      .error (.invalid ("Cannot write " ++ what ++ ": a value has the wrong form."))
    else .ok ()

/-- A unique index that refuses a write. -/
def orUsed {α : Type} (what : String) : Option α → Except PlanError α
  | some a => .ok a
  | none => .error (.conflict ("Cannot write " ++ what ++ ": that value is already used."))

/-! ## The writers -/

/-- What a writer returns. -/
inductive Answer where
  | category (row : CategoryRow)
  | deleted (id : ℤ) (tagsRemoved watchlistUncategorized symbolOrderRemoved : ℕ)
  | order (categoryName : String) (symbols : List String)

/-- `create_position_category_strict`; `newId` is the next id of the sequence. -/
def createPositionCategoryStrict (db : Db) (newId : ℤ) (name description sortOrder : PayloadValue) :
    Except PlanError (Db × Answer) := do
  let name ← wsText name "name" false
  let name ← checkCategoryName (textOrEmpty name)
  let description ← wsText description "description" true
  let sortOrder ← wsWholeNumber sortOrder "sort_order"
  let name ← storedText name
  refuseTakenName db name none
  checkStored ("position category '" ++ name ++ "'") description sortOrder
  let row : CategoryRow := ⟨newId, name, description, sortOrder⟩
  let categories ← orUsed ("position category '" ++ name ++ "'") (db.categories.insert? row)
  return ({ db with categories }, .category row)

/-- The fields of a patch, or no object. -/
inductive PatchPayload where
  | notObject
  | object (fields : List (String × PayloadValue))

/-- The fields that a patch may have. -/
def positionCategoryPatchable : List String := ["name", "description", "sort_order"]

/-- `ws.check_fields`. -/
def checkCategoryFields : PatchPayload → Except PlanError (List (String × PayloadValue))
  | .notObject => .error (.invalid "The position category fields must be an object.")
  | .object fields =>
      let unknown := (fields.map Prod.fst).filter fun k => k ∉ positionCategoryPatchable
      if fields = [] then
        .error (.invalid "Nothing to change: send at least one position category field.")
      else if unknown ≠ [] then
        .error (.invalid ("Unknown position category field" ++
          (if 1 < unknown.length then "s" else "") ++ ": " ++
          ", ".intercalate (sortedBy id unknown) ++ ". Patchable: " ++
          ", ".intercalate positionCategoryPatchable ++ "."))
      else .ok fields

/-- A field that is sent is checked. -/
def sentField {α : Type} (fields : List (String × PayloadValue)) (name : String)
    (check : PayloadValue → Except PlanError α) : Except PlanError (Option α) :=
  match fields.lookup name with
  | none => .ok none
  | some v => (check v).map some

/-- The new name of a patch. -/
def patchName (value : PayloadValue) : Except PlanError String :=
  (wsText value "name" false).bind fun name => checkCategoryName (textOrEmpty name)

/-- A name that the patch may give the category. -/
def freeName (db : Db) (categoryId : ℤ) : Option String → Except PlanError Unit
  | none => .ok ()
  | some name => (storedText name).bind fun name => refuseTakenName db name (some categoryId)

/-- The order after a patch: a new name carries it along. -/
def carryOnPatch (db : Db) (oldName : String) : Option String → Option OrderTable
  | none => some db.orders
  | some name => (carrySymbolOrder db.orders oldName (some name)).map Prod.fst

/-- `patch_position_category`. -/
def patchPositionCategory (db : Db) (categoryId : ℤ) (payload : PatchPayload) :
    Except PlanError (Db × Answer) := do
  let what := "position category " ++ toString categoryId
  let fields ← checkCategoryFields payload
  let name ← sentField fields "name" patchName
  let description ← sentField fields "description" fun v => wsText v "description" true
  let sortOrder ← sentField fields "sort_order" fun v => wsWholeNumber v "sort_order"
  match db.categories.rows.find? fun r => r.id = categoryId with
  | none => .error (.notFound ("No position category " ++ toString categoryId ++ "."))
  | some old =>
      freeName db categoryId name
      checkStored what description.join sortOrder.join
      let row : CategoryRow :=
        ⟨old.id, name.getD old.name, description.getD old.description,
          sortOrder.getD old.sortOrder⟩
      let categories ← orUsed what
        (db.categories.update? (fun r => r.id = categoryId) fun _ => row)
      let orders ← orUsed what (carryOnPatch db old.name name)
      return ({ db with categories, orders }, .category row)

/-- `delete_position_category_strict`: tags go with the category, watchlist rows lose it. -/
def deletePositionCategoryStrict (db : Db) (categoryId : ℤ) : Except PlanError (Db × Answer) :=
  match db.categories.rows.find? fun r => r.id = categoryId with
  | none => .error (.notFound ("No position category " ++ toString categoryId ++ "."))
  | some found =>
      let tags := db.tags.filter fun t => t.categoryId ≠ categoryId
      let watched := db.watchlist.filter fun w => w = some categoryId
      (orUsed ("position category " ++ toString categoryId)
        (carrySymbolOrder db.orders found.name none)).map fun (orders, ordered) =>
        ({ categories := db.categories.delete fun r => r.id = categoryId
           orders
           tags
           watchlist := db.watchlist.map fun w => if w = some categoryId then none else w },
          .deleted categoryId (db.tags.length - tags.length) watched.length ordered)

/-- The value of `symbols`. -/
inductive SymbolsValue where
  | null
  | notList
  | list (items : List PayloadValue)

/-- `ws.list_value` and the texts of the items. -/
def symbolTexts : SymbolsValue → Except PlanError (List String)
  | .null => invalid "symbols" " cannot be null; send [] to empty it."
  | .notList => invalid "symbols" " must be a list."
  | .list items => items.zipIdx.mapM fun (v, i) =>
      (wsText v ("symbols[" ++ toString i ++ "]") false).map textOrEmpty

/-- `ws.name_list`. -/
def nameList (names : List String) : String :=
  let shown := names.take 5
  let rest := names.length - shown.length
  if 0 < rest then ", ".intercalate shown ++ " and " ++ toString rest ++ " more"
  else match shown.getLast? with
    | none => ""
    | some last =>
        if shown.length = 1 then last
        else ", ".intercalate shown.dropLast ++ " and " ++ last

/-- The rows of an order, inserted one after another. -/
def insertOrder (orders : OrderTable) (category : String) (symbols : List String) :
    Option OrderTable :=
  symbols.zipIdx.foldlM (fun orders s => orders.insert? ⟨category, s.1, s.2⟩) orders

/-- `set_market_streams_symbol_order_strict`. -/
def setMarketStreamsSymbolOrderStrict (db : Db) (categoryName : PayloadValue)
    (symbols : SymbolsValue) : Except PlanError (Db × Answer) := do
  let category ← wsText categoryName "category_name" false
  let category := textOrEmpty category
  let ordered ← symbolTexts symbols
  let repeated := sortedBy id (ordered.filter fun s => 1 < ordered.count s).dedup
  if repeated ≠ [] then
    invalid "" ("symbols lists " ++ nameList repeated ++ " more than once.")
  else
    let _ ← (category :: ordered).mapM storedText
    let orders ← orUsed ("the symbol order of " ++ category)
      (insertOrder (db.orders.delete fun r => r.categoryName = category) category ordered)
    return ({ db with orders }, .order category ordered)

/-! ## Steps -/

/-- A call of a writer. -/
inductive Op where
  | create (newId : ℤ) (name description sortOrder : PayloadValue)
  | patch (categoryId : ℤ) (payload : PatchPayload)
  | delete (categoryId : ℤ)
  | setOrder (categoryName : PayloadValue) (symbols : SymbolsValue)

/-- The tables a call commits and its answer, or why it was refused. -/
def attempt (db : Db) : Op → Except PlanError (Db × Answer)
  | .create newId name description sortOrder =>
      createPositionCategoryStrict db newId name description sortOrder
  | .patch categoryId payload => patchPositionCategory db categoryId payload
  | .delete categoryId => deletePositionCategoryStrict db categoryId
  | .setOrder categoryName symbols => setMarketStreamsSymbolOrderStrict db categoryName symbols

/-- A refused call is rolled back. -/
def step (db : Db) (op : Op) : Db :=
  match attempt db op with
  | .ok (db', _) => db'
  | .error _ => db

/-! ## What is claimed -/

/-- A call that creates, renames or deletes a category. -/
def Op.OnCategories : Op → Prop
  | .setOrder .. => False
  | _ => True

/-- What a call does to the orders of the categories, which are known by their ids. -/
structure OrdersFollow (db : Db) (op : Op) (db' : Db) : Prop where
  /-- The order of a renamed category is under its new name, and nothing is under the old one. -/
  renamed : ∀ c ∈ db.categories.rows, ∀ c' ∈ db'.categories.rows, c'.id = c.id → c'.name ≠ c.name →
    orderOf db'.orders c'.name = orderOf db.orders c.name ∧ orderOf db'.orders c.name = []
  /-- A deleted category leaves no order. -/
  deleted : ∀ c ∈ db.categories.rows, (∀ c' ∈ db'.categories.rows, c'.id ≠ c.id) →
    orderOf db'.orders c.name = []
  /-- The other categories keep their order. -/
  others : op.OnCategories → ∀ c ∈ db.categories.rows,
    (∃ c' ∈ db'.categories.rows, c'.id = c.id ∧ c'.name = c.name) →
      orderOf db'.orders c.name = orderOf db.orders c.name
  /-- Positions without a category keep theirs. -/
  uncategorized : op.OnCategories →
    orderOf db'.orders uncategorized = orderOf db.orders uncategorized
  /-- No category takes the reserved name. -/
  notReserved : ∀ c ∈ db'.categories.rows, ¬ Reserved c.name
  /-- A refused call changes nothing. -/
  refused : ∀ e, attempt db op = .error e → db' = db

/-- No category has the reserved name. -/
def NoneReserved (db : Db) : Prop := ∀ c ∈ db.categories.rows, ¬ Reserved c.name

/-- Every category has a name. -/
def AllNamed (db : Db) : Prop := ∀ c ∈ db.categories.rows, c.name ≠ ""

/-! ## The orders -/

theorem orderOf_delete (orders : OrderTable) (name m : String) :
    orderOf (orders.delete fun r => r.categoryName = name) m =
      if m = name then [] else orderOf orders m := by
  rw [orderOf, Sql.Store.rows_delete, List.filter_filter]
  by_cases hm : m = name
  · subst hm
    rw [if_pos rfl, List.filter_eq_nil_iff.2 (by simp), List.map_nil]
  · rw [if_neg hm, orderOf]
    congr 1
    refine List.filter_congr fun r _ => ?_
    by_cases hr : r.categoryName = m <;> simp [hr, hm]

/-- An order moved to a name that has none. -/
theorem orderOf_rename {orders orders' : OrderTable} {old new : String} (hne : new ≠ old)
    (hfree : orderOf orders new = [])
    (h : orders.update? (fun r => r.categoryName = old) (fun r => { r with categoryName := new }) =
      some orders') (m : String) :
    orderOf orders' m =
      if m = new then orderOf orders old else if m = old then [] else orderOf orders m := by
  have hnone : ∀ r ∈ orders.rows, r.categoryName ≠ new := by
    intro r hr heq
    have hmem : (r.symbol, r.sortOrder) ∈ orderOf orders new :=
      List.mem_map_of_mem (List.mem_filter.2 ⟨hr, decide_eq_true heq⟩)
    rw [hfree] at hmem
    cases hmem
  rw [orderOf, Sql.Store.rows_of_update? h, List.filter_map, List.map_map]
  by_cases hnew : m = new
  · subst hnew
    rw [if_pos rfl, orderOf]
    have hfilter : orders.rows.filter ((fun r => decide (r.categoryName = m)) ∘ fun r =>
        if decide (r.categoryName = old) = true then { r with categoryName := m } else r) =
        orders.rows.filter fun r => r.categoryName = old := by
      refine List.filter_congr fun r hr => ?_
      by_cases hold : r.categoryName = old
      · simp [hold]
      · simp [hold, hnone r hr]
    rw [hfilter]
    refine List.map_congr_left fun r hr => ?_
    have hold : r.categoryName = old := by simpa using (List.mem_filter.1 hr).2
    simp [hold]
  · rw [if_neg hnew]
    have hfilter : orders.rows.filter ((fun r => decide (r.categoryName = m)) ∘ fun r =>
        if decide (r.categoryName = old) = true then { r with categoryName := new } else r) =
        orders.rows.filter fun r => r.categoryName = m ∧ m ≠ old := by
      refine List.filter_congr fun r hr => ?_
      by_cases hold : r.categoryName = old
      · by_cases hm : m = old
        · simp [hold, hm, hne]
        · simp [hold, hm, Ne.symm hnew, Ne.symm hm]
      · by_cases hm : m = old
        · simp [hold, hm]
        · simp [hold, hm]
    rw [hfilter]
    by_cases hm : m = old
    · rw [if_pos hm, List.filter_eq_nil_iff.2 (by simp [hm]), List.map_nil]
    · rw [if_neg hm, orderOf]
      have hsame : (orders.rows.filter fun r => r.categoryName = m ∧ m ≠ old) =
          orders.rows.filter fun r => r.categoryName = m :=
        List.filter_congr fun r _ => by simp [hm]
      rw [hsame]
      refine List.map_congr_left fun r hr => ?_
      have hrm : r.categoryName = m := by simpa using (List.mem_filter.1 hr).2
      simp [hrm, hm]

/-- The order of a category that has a name is carried to its new name. -/
theorem orderOf_carry {orders orders' : OrderTable} {old new : String} {n : ℕ} (hold : old ≠ "")
    (h : carrySymbolOrder orders old (some new) = some (orders', n)) (m : String) :
    orderOf orders' m =
      if m = new then orderOf orders old else if m = old then [] else orderOf orders m := by
  unfold carrySymbolOrder at h
  split_ifs at h with hkeep
  · obtain rfl : new = old := Option.some.inj (hkeep.resolve_left hold)
    obtain ⟨rfl, -⟩ := Prod.mk.inj (Option.some.inj h)
    by_cases hm : m = new <;> simp [hm]
  · have hne : new ≠ old := fun heq => hkeep (.inr (congrArg some heq))
    obtain ⟨moved, hmoved, heq⟩ := Option.map_eq_some_iff.1 h
    obtain ⟨rfl, -⟩ := Prod.mk.inj heq
    have hfree : orderOf (orders.delete fun r => r.categoryName = new) new = [] := by
      rw [orderOf_delete, if_pos rfl]
    rw [orderOf_rename hne hfree hmoved, orderOf_delete, orderOf_delete, if_neg hne.symm]
    by_cases hm : m = new <;> simp [hm]

/-- The order of a category that has a name is dropped with it. -/
theorem orderOf_drop {orders orders' : OrderTable} {old : String} {n : ℕ} (hold : old ≠ "")
    (h : carrySymbolOrder orders old none = some (orders', n)) (m : String) :
    orderOf orders' m = if m = old then [] else orderOf orders m := by
  unfold carrySymbolOrder at h
  rw [if_neg (by simp [hold])] at h
  obtain ⟨rfl, -⟩ := Prod.mk.inj (Option.some.inj h)
  exact orderOf_delete orders old m

/-! ## The writers, taken apart -/

theorem wsText_name {value : PayloadValue} {name : Option String} {what : String}
    (h : wsText value what false = .ok name) : textOrEmpty name ≠ "" := by
  unfold wsText at h
  split at h
  · simp [invalid] at h
  · split_ifs at h with hblank
    · obtain rfl := Except.ok.inj h
      exact hblank
    · simp [invalid] at h
    · simp [invalid] at h
  · simp [invalid] at h

theorem of_checkCategoryName {name name' : String} (h : checkCategoryName name = .ok name') :
    name' = name ∧ ¬ Reserved name := by
  unfold checkCategoryName at h
  split_ifs at h with hreserved
  exact ⟨(Except.ok.inj h).symm, hreserved⟩

theorem of_storedText {s s' : String} (h : storedText s = .ok s') : s' = s := by
  unfold storedText at h
  split_ifs at h
  exact (Except.ok.inj h).symm

theorem orUsed_eq_ok {α : Type} {what : String} {o : Option α} {a : α} :
    orUsed what o = .ok a ↔ o = some a := by
  cases o <;> simp [orUsed]

/-- A name that a category may take. -/
def GoodName (name : String) : Prop := name ≠ "" ∧ ¬ Reserved name

theorem of_patchName {value : PayloadValue} {name : String} (h : patchName value = .ok name) :
    GoodName name := by
  obtain ⟨text, htext, hcheck⟩ := bind_eq_ok.1 h
  obtain ⟨rfl, hreserved⟩ := of_checkCategoryName hcheck
  exact ⟨wsText_name htext, hreserved⟩

variable {db db' : Db} {answer : Answer}

/-- A create adds a category and leaves the orders. -/
theorem of_create {newId : ℤ} {name description sortOrder : PayloadValue}
    (h : createPositionCategoryStrict db newId name description sortOrder = .ok (db', answer)) :
    db'.orders = db.orders ∧ ∃ row, GoodName row.name ∧
      db'.categories.rows = db.categories.rows ++ [row] := by
  obtain ⟨text, htext, h⟩ := bind_eq_ok.1 h
  obtain ⟨name₁, hname₁, h⟩ := bind_eq_ok.1 h
  obtain ⟨description, -, h⟩ := bind_eq_ok.1 h
  obtain ⟨sortOrder, -, h⟩ := bind_eq_ok.1 h
  obtain ⟨name₂, hname₂, h⟩ := bind_eq_ok.1 h
  obtain ⟨-, -, h⟩ := bind_eq_ok.1 h
  obtain ⟨-, -, h⟩ := bind_eq_ok.1 h
  obtain ⟨categories, hinsert, h⟩ := bind_eq_ok.1 h
  obtain ⟨rfl, -⟩ := Prod.mk.inj (Except.ok.inj h)
  obtain ⟨rfl, hreserved⟩ := of_checkCategoryName hname₁
  obtain rfl := of_storedText hname₂
  refine ⟨rfl, _, ⟨?_, ?_⟩, (Sql.Store.rows_of_insert? (orUsed_eq_ok.1 hinsert)).1⟩
  · exact wsText_name htext
  · exact hreserved

/-- A category with the id a patch or a delete names. -/
theorem of_find {categoryId : ℤ} {c : CategoryRow}
    (h : (db.categories.rows.find? fun r => r.id = categoryId) = some c) :
    c ∈ db.categories.rows ∧ c.id = categoryId :=
  ⟨List.mem_of_find?_eq_some h, by simpa using List.find?_some h⟩

theorem of_sentField {α : Type} {fields : List (String × PayloadValue)} {name : String}
    {check : PayloadValue → Except PlanError α} {o : Option α}
    (h : sentField fields name check = .ok o) : ∀ a ∈ o, ∃ v, check v = .ok a := by
  unfold sentField at h
  split at h
  · obtain rfl := Except.ok.inj h
    simp
  · rename_i v hv
    intro a ha
    cases hcheck : check v with
    | error e =>
      rw [hcheck] at h
      cases h
    | ok b =>
      rw [hcheck] at h
      obtain rfl := Except.ok.inj h
      obtain rfl := Option.some.inj ha
      exact ⟨v, hcheck⟩

/-- A patch writes one row under its id, and carries the order where it sends a name. -/
theorem of_patch {categoryId : ℤ} {payload : PatchPayload}
    (h : patchPositionCategory db categoryId payload = .ok (db', answer)) :
    ∃ old ∈ db.categories.rows, ∃ row, old.id = categoryId ∧ row.id = categoryId ∧
      db'.categories.rows = (db.categories.rows.map fun r => if r.id = categoryId then row else r) ∧
      (row.name = old.name ∧ db'.orders = db.orders ∨
        GoodName row.name ∧ ∃ n,
          carrySymbolOrder db.orders old.name (some row.name) = some (db'.orders, n)) := by
  unfold patchPositionCategory at h
  obtain ⟨fields, -, h⟩ := bind_eq_ok.1 h
  obtain ⟨name, hname, h⟩ := bind_eq_ok.1 h
  obtain ⟨description, -, h⟩ := bind_eq_ok.1 h
  obtain ⟨sortOrder, -, h⟩ := bind_eq_ok.1 h
  split at h
  · cases h
  rename_i old hold
  obtain ⟨-, -, h⟩ := bind_eq_ok.1 h
  obtain ⟨-, -, h⟩ := bind_eq_ok.1 h
  obtain ⟨categories, hupdate, h⟩ := bind_eq_ok.1 h
  obtain ⟨orders, hcarry, h⟩ := bind_eq_ok.1 h
  obtain ⟨rfl, -⟩ := Prod.mk.inj (Except.ok.inj h)
  obtain ⟨hmem, hid⟩ := of_find hold
  have hrows := Sql.Store.rows_of_update? (orUsed_eq_ok.1 hupdate)
  simp only [decide_eq_true_eq] at hrows
  refine ⟨old, hmem, ⟨old.id, name.getD old.name, _, _⟩, hid, hid, hrows, ?_⟩
  have hcarry := orUsed_eq_ok.1 hcarry
  cases name with
  | none => exact .inl ⟨rfl, (Option.some.inj hcarry).symm⟩
  | some new =>
    obtain ⟨v, hv⟩ := of_sentField hname new rfl
    obtain ⟨carried, hcarried, rfl⟩ := Option.map_eq_some_iff.1 hcarry
    exact .inr ⟨of_patchName hv, carried.2, hcarried⟩

theorem of_delete {categoryId : ℤ}
    (h : deletePositionCategoryStrict db categoryId = .ok (db', answer)) :
    ∃ c ∈ db.categories.rows, c.id = categoryId ∧
      db'.categories.rows = (db.categories.rows.filter fun r => r.id ≠ categoryId) ∧
      ∃ n, carrySymbolOrder db.orders c.name none = some (db'.orders, n) := by
  unfold deletePositionCategoryStrict at h
  split at h
  · cases h
  rename_i c hc
  obtain ⟨hmem, hid⟩ := of_find hc
  dsimp only at h
  cases hcarry : carrySymbolOrder db.orders c.name none with
  | none =>
    rw [hcarry] at h
    cases h
  | some carried =>
    rw [hcarry] at h
    obtain ⟨rfl, -⟩ := Prod.mk.inj (Except.ok.inj h)
    refine ⟨c, hmem, hid, ?_, carried.2, hcarry⟩
    rw [Sql.Store.rows_delete]
    exact List.filter_congr fun r _ => by simp

/-- Setting an order leaves the categories. -/
theorem of_setOrder {categoryName : PayloadValue} {symbols : SymbolsValue}
    (h : setMarketStreamsSymbolOrderStrict db categoryName symbols = .ok (db', answer)) :
    db'.categories = db.categories := by
  obtain ⟨category, -, h⟩ := bind_eq_ok.1 h
  obtain ⟨ordered, -, h⟩ := bind_eq_ok.1 h
  dsimp only at h
  split_ifs at h
  · cases h
  · obtain ⟨-, -, h⟩ := bind_eq_ok.1 h
    obtain ⟨orders, -, h⟩ := bind_eq_ok.1 h
    obtain ⟨rfl, -⟩ := Prod.mk.inj (Except.ok.inj h)
    rfl

/-! ## One call -/

theorem good_uncategorized {name : String} (h : ¬ Reserved name) : name ≠ uncategorized := by
  rintro rfl
  exact h (by decide +kernel)

theorem unique_name {c c' : CategoryRow} (hc : c ∈ db.categories.rows)
    (hc' : c' ∈ db.categories.rows) (h : c.name = c'.name) : c = c' :=
  db.categories.eq_of_clash CategoryRow.clash_symm hc hc' (.inr h)

theorem unique_id {c c' : CategoryRow} (hc : c ∈ db.categories.rows)
    (hc' : c' ∈ db.categories.rows) (h : c.id = c'.id) : c = c' :=
  db.categories.eq_of_clash CategoryRow.clash_symm hc hc' (.inl h)

/-- Every category has a name that it may have. -/
def AllGood (db : Db) : Prop := ∀ c ∈ db.categories.rows, GoodName c.name

/-- Where every category keeps its name and the orders stay, nothing is renamed or lost. -/
theorem OrdersFollow.of_same {op : Op} {r : Db × Answer} (hgood : AllGood db')
    (hattempt : attempt db op = .ok r) (horders : op.OnCategories → db'.orders = db.orders)
    (hkeep : ∀ c ∈ db.categories.rows, c ∈ db'.categories.rows) : OrdersFollow db op db' where
  renamed c hc c' hc' hid hne := by
    rw [unique_id hc' (hkeep c hc) hid] at hne
    exact absurd rfl hne
  deleted c hc hnone := absurd rfl (hnone c (hkeep c hc))
  others hon c _ _ := by rw [horders hon]
  uncategorized hon := by rw [horders hon]
  notReserved c hc := (hgood c hc).2
  refused e he := by
    rw [hattempt] at he
    cases he

theorem ordersFollow_create (hgood : AllGood db) {newId : ℤ}
    {name description sortOrder : PayloadValue}
    (h : attempt db (.create newId name description sortOrder) = .ok (db', answer)) :
    AllGood db' ∧ OrdersFollow db (.create newId name description sortOrder) db' := by
  obtain ⟨horders, row, hrow, hrows⟩ := of_create h
  have hgood' : AllGood db' := by
    intro c hc
    rw [hrows, List.mem_append, List.mem_singleton] at hc
    rcases hc with hc | rfl
    exacts [hgood c hc, hrow]
  refine ⟨hgood', OrdersFollow.of_same hgood' h (fun _ => horders) fun c hc => ?_⟩
  rw [hrows]
  exact List.mem_append_left _ hc

theorem ordersFollow_setOrder (hgood : AllGood db) {categoryName : PayloadValue}
    {symbols : SymbolsValue} (h : attempt db (.setOrder categoryName symbols) = .ok (db', answer)) :
    AllGood db' ∧ OrdersFollow db (.setOrder categoryName symbols) db' := by
  have hcategories : db'.categories = db.categories := of_setOrder h
  have hgood' : AllGood db' := by rwa [AllGood, hcategories]
  refine ⟨hgood', OrdersFollow.of_same hgood' h (fun hon => hon.elim) fun c hc => ?_⟩
  rwa [hcategories]

theorem ordersFollow_delete (hgood : AllGood db) {categoryId : ℤ}
    (h : attempt db (.delete categoryId) = .ok (db', answer)) :
    AllGood db' ∧ OrdersFollow db (.delete categoryId) db' := by
  obtain ⟨gone, hgone, hid, hrows, n, hdrop⟩ := of_delete h
  have hmem : ∀ c, c ∈ db'.categories.rows ↔ c ∈ db.categories.rows ∧ c.id ≠ categoryId := by
    intro c
    rw [hrows, List.mem_filter, decide_eq_true_eq]
  have horder := orderOf_drop (hgood gone hgone).1 hdrop
  have hgood' : AllGood db' := fun c hc => hgood c ((hmem c).1 hc).1
  refine ⟨hgood', ?_, ?_, ?_, ?_, fun c hc => (hgood' c hc).2, ?_⟩
  · intro c hc c' hc' hid' hne
    rw [unique_id ((hmem c').1 hc').1 hc hid'] at hne
    exact absurd rfl hne
  · intro c hc hnone
    -- the category that is gone is the one that was named
    have hc' : c.id = categoryId := by
      by_contra hne
      exact hnone c ((hmem c).2 ⟨hc, hne⟩) rfl
    rw [unique_id hc hgone (hc'.trans hid.symm), horder, if_pos rfl]
  · rintro - c hc ⟨c', hc', hid', hname⟩
    obtain ⟨hc'db, hne⟩ := (hmem c').1 hc'
    have hother : c.name ≠ gone.name := by
      intro heq
      rw [unique_name hc hgone heq] at hid'
      exact hne (hid'.trans hid)
    rw [horder, if_neg hother]
  · intro _
    rw [horder, if_neg (good_uncategorized (hgood gone hgone).2).symm]
  · intro e he
    rw [h] at he
    cases he

theorem ordersFollow_patch (hgood : AllGood db) {categoryId : ℤ} {payload : PatchPayload}
    (h : attempt db (.patch categoryId payload) = .ok (db', answer)) :
    AllGood db' ∧ OrdersFollow db (.patch categoryId payload) db' := by
  obtain ⟨old, hold, row, hid, hrowid, hrows, hcarry⟩ := of_patch h
  have hmem : ∀ c', c' ∈ db'.categories.rows ↔
      c' ∈ db.categories.rows ∧ c'.id ≠ categoryId ∨ c' = row := by
    intro c'
    rw [hrows, List.mem_map]
    constructor
    · rintro ⟨c, hc, rfl⟩
      by_cases hcid : c.id = categoryId
      · exact .inr (if_pos hcid)
      · rw [if_neg hcid]
        exact .inl ⟨hc, hcid⟩
    · rintro (⟨hc, hcid⟩ | rfl)
      · exact ⟨c', hc, if_neg hcid⟩
      · exact ⟨old, hold, if_pos hid⟩
  have hrow : GoodName row.name := by
    rcases hcarry with ⟨hname, -⟩ | ⟨hname, -⟩
    · rw [hname]
      exact hgood old hold
    · exact hname
  have hgood' : AllGood db' := by
    intro c hc
    rcases (hmem c).1 hc with ⟨hc, -⟩ | rfl
    exacts [hgood c hc, hrow]
  have horder : ∀ m, orderOf db'.orders m = if m = row.name then orderOf db.orders old.name
      else if m = old.name then [] else orderOf db.orders m := by
    intro m
    rcases hcarry with ⟨hname, horders⟩ | ⟨-, n, hcarried⟩
    · rw [horders, hname]
      by_cases hm : m = old.name <;> simp [hm]
    · exact orderOf_carry (hgood old hold).1 hcarried m
  refine ⟨hgood', ?_, ?_, ?_, ?_, fun c hc => (hgood' c hc).2, ?_⟩
  · intro c hc c' hc' hid' hne
    rcases (hmem c').1 hc' with ⟨hc'db, -⟩ | rfl
    · rw [unique_id hc'db hc hid'] at hne
      exact absurd rfl hne
    · obtain rfl := unique_id hc hold (hid'.symm.trans (hrowid.trans hid.symm))
      rw [horder, if_pos rfl, horder, if_neg hne.symm, if_pos rfl]
      exact ⟨rfl, rfl⟩
  · intro c hc hnone
    -- a patch deletes no category
    by_cases hcid : c.id = categoryId
    · exact absurd (hrowid.trans hcid.symm) (hnone row ((hmem row).2 (.inr rfl)))
    · exact absurd rfl (hnone c ((hmem c).2 (.inl ⟨hc, hcid⟩)))
  · rintro - c hc ⟨c', hc', hid', hname⟩
    rw [horder]
    by_cases hrowname : c.name = row.name
    · -- the category is the one that was patched, under the name it had
      have hrow' : row ∈ db'.categories.rows := (hmem row).2 (.inr rfl)
      have hsame : c' = row := unique_name hc' hrow' (hname.trans hrowname)
      have hcold : c = old := by
        refine unique_id hc hold ?_
        rw [← hid', hsame, hrowid, hid]
      rw [if_pos hrowname, hcold]
    · rw [if_neg hrowname, if_neg]
      intro hcold
      have hc'row : c' = row := by
        rcases (hmem c').1 hc' with ⟨hc'db, hne⟩ | rfl
        · rw [unique_name hc hold hcold] at hid'
          exact absurd (hid'.trans hid) hne
        · rfl
      exact hrowname (by rw [← hname, hc'row])
  · intro _
    rw [horder, if_neg (good_uncategorized hrow.2).symm,
      if_neg (good_uncategorized (hgood old hold).2).symm]
  · intro e he
    rw [h] at he
    cases he

/-- The orders follow one call. -/
theorem ordersFollow_step (hgood : AllGood db) (op : Op) :
    AllGood (step db op) ∧ OrdersFollow db op (step db op) := by
  cases hattempt : attempt db op with
  | error e =>
    have hstep : step db op = db := by rw [step, hattempt]
    rw [hstep]
    exact ⟨hgood,
      { renamed := fun c hc c' hc' hid hne => by
          rw [unique_id hc' hc hid] at hne
          exact absurd rfl hne
        deleted := fun c hc hnone => absurd rfl (hnone c hc)
        others := fun _ _ _ _ => rfl
        uncategorized := fun _ => rfl
        notReserved := fun c hc => (hgood c hc).2
        refused := fun _ _ => rfl }⟩
  | ok r =>
    obtain ⟨db', answer⟩ := r
    have hstep : step db op = db' := by rw [step, hattempt]
    rw [hstep]
    cases op with
    | create newId name description sortOrder => exact ordersFollow_create hgood hattempt
    | patch categoryId payload => exact ordersFollow_patch hgood hattempt
    | delete categoryId => exact ordersFollow_delete hgood hattempt
    | setOrder categoryName symbols => exact ordersFollow_setOrder hgood hattempt

/-! ## Runs -/

/-- **Orders follow their categories.**  From categories that have names, none of them reserved, the
orders follow every call of every run. -/
theorem ordersFollow_run (start : Db) (hnamed : AllNamed start) (hreserved : NoneReserved start)
    (ops : List Op) :
    Along step start (fun _ db op => OrdersFollow db op (step db op)) ops := by
  have hgood : AllGood start := fun c hc => ⟨hnamed c hc, hreserved c hc⟩
  have hany : Along step start (fun _ _ _ => True) ops := fun _ _ _ _ => trivial
  exact along_of_invariant (fun _ => AllGood) hgood
    (fun _ op _ h => (ordersFollow_step h op).1) (fun _ op h => (ordersFollow_step h op).2) hany

/-- A category, and an order under its name and one for positions without a category. -/
def incomeDb : Db where
  categories := ⟨[⟨1, "Income", none, none⟩], List.pairwise_singleton _ _⟩
  orders := ⟨[⟨"Income", "O", 0⟩, ⟨uncategorized, "SPY", 0⟩], by decide⟩
  tags := []
  watchlist := []

/-- The category renamed to a name that has an order of its own, and deleted. -/
def incomeOps : List Op :=
  [.setOrder (.text "Yield") (.list [.text "T"]),
    .patch 1 (.object [("name", .text " Yield ")]),
    .patch 1 (.object [("name", .text "uncategorized")]),
    .delete 1]

theorem ordersFollow_run_income :
    AllNamed incomeDb ∧ NoneReserved incomeDb ∧
      Along step incomeDb (fun _ db op => OrdersFollow db op (step db op)) incomeOps := by
  have hnamed : AllNamed incomeDb := by
    intro c hc
    obtain rfl := List.mem_singleton.1 hc
    decide
  have hreserved : NoneReserved incomeDb := by
    intro c hc
    obtain rfl := List.mem_singleton.1 hc
    decide +kernel
  exact ⟨hnamed, hreserved, ordersFollow_run incomeDb hnamed hreserved incomeOps⟩

/-- A category without a name, and an order under no name. -/
def blankDb : Db where
  categories := ⟨[⟨1, "", none, none⟩], List.pairwise_singleton _ _⟩
  orders := ⟨[⟨"", "SPY", 0⟩], by decide⟩
  tags := []
  watchlist := []

/-- A category without a name leaves its order when it is deleted. -/
theorem not_ordersFollow_blank :
    NoneReserved blankDb ∧
      ¬ Along step blankDb (fun _ db op => OrdersFollow db op (step db op)) [.delete 1] := by
  constructor
  · intro c hc
    obtain rfl := List.mem_singleton.1 hc
    decide +kernel
  · intro h
    have hfollow := h [] (.delete 1) [] rfl
    have hrows : (step blankDb (.delete 1)).categories.rows = [] := by decide +kernel
    have hleft : orderOf (step blankDb (.delete 1)).orders "" = [("SPY", 0)] := by decide +kernel
    have hdeleted := hfollow.deleted ⟨1, "", none, none⟩ (List.mem_singleton_self _)
      fun c' hc' => by
        rw [run_nil, hrows] at hc'
        cases hc'
    rw [run_nil, hleft] at hdeleted
    cases hdeleted

end Portfolio.PositionCategories
