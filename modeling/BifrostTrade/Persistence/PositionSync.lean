import BifrostTrade.Persistence.AccountsSync
import Mathlib.Data.List.Induction

/-!
# What the sync stores

The rows of `positions` after a snapshot, key by key.  An upsert keeps the symbol and the security
type of the row it finds, what is not a list deletes like an empty one, and a number too large for a
float stops the whole sync; `storesSnapshot_iff` says exactly when the stored rows are nevertheless
those of the lists that were read, in terms of the snapshot and of the rows before it.
-/

namespace Persistence

open Py Portfolio

/-! ## The claim of a snapshot -/

/-- The rows of an item's list, under the account. -/
def AccountItem.positionRows (now : Instant) (accountId : String) (acc : AccountItem) :
    List PositionRow :=
  acc.positions.items.map (positionRow now accountId)

/-- The first row of a list under a key. -/
def firstRow (rows : List PositionRow) (contractKey : String) : Option PositionRow :=
  rows.find? fun r => r.contractKey = contractKey

/-- The last row of a list under a key. -/
def lastRow (rows : List PositionRow) (contractKey : String) : Option PositionRow :=
  firstRow rows.reverse contractKey

/-- The last list that was read for an account. -/
def lastRead (items : List AccountItem) (accountId : String) : Option AccountItem :=
  items.reverse.find? fun acc => acc.validAccountId = some accountId ∧ acc.positionsRead

/-- The row to be stored under a key: that of the last list that was read for the account, in which
the last row of a repeated key wins; without one, the row stored before. -/
def expectedRow (now : Instant) (db : Brokerage) (items : List AccountItem)
    (accountId contractKey : String) : Option PositionRow :=
  match lastRead items accountId with
  | some acc => lastRow (acc.positionRows now accountId) contractKey
  | none => db.positions.get (accountId, contractKey)

/-- The sync ends, and stores exactly the snapshot. -/
def StoresSnapshot (now : Instant) (db : Brokerage)
    (accountsList : Option (List AccountItem)) : Prop :=
  ∃ db', syncAccountsSnapshotToTables now db accountsList = some db' ∧
    ∀ accountId contractKey, db'.positions.get (accountId, contractKey) =
      expectedRow now db (accountsList.getD []) accountId contractKey

/-! ## When a snapshot is stored -/

/-- The item is for the account and replaces its positions. -/
def AccountItem.Replaces (acc : AccountItem) (accountId : String) : Prop :=
  acc.validAccountId = some accountId ∧ acc.replacesPositions

instance (acc : AccountItem) (accountId : String) : Decidable (acc.Replaces accountId) :=
  inferInstanceAs (Decidable (_ ∧ _))

/-- The symbol and the security type that an item spells. -/
def PositionItem.names (p : PositionItem) : Option String × Option String :=
  (some (textOrEmpty p.symbol), some p.sec)

/-- The symbol and the security type of a row. -/
def PositionRow.names (r : PositionRow) : Option String × Option String := (r.symbol, r.secType)

/-- The lists that replace the positions of an account; what is no list is an empty one. -/
def replacements (items : List AccountItem) (accountId : String) : List (List PositionItem) :=
  (items.filter fun acc => acc.Replaces accountId).map fun acc => acc.positions.items

/-- The lists with a key since the last one without it. -/
def stretch (lists : List (List PositionItem)) (contractKey : String) :
    List (List PositionItem) :=
  lists.rtakeWhile fun items => contractKey ∈ items.map PositionItem.contractKey

/-- The first item with a key. -/
def firstItem (items : List PositionItem) (contractKey : String) : Option PositionItem :=
  items.find? fun p => p.contractKey = contractKey

/-- The last item with a key. -/
def lastItem (items : List PositionItem) (contractKey : String) : Option PositionItem :=
  firstItem items.reverse contractKey

/-- The names under which a key came in: of the row stored before, where every list has the key,
else of the first item since the last list without it. -/
def namesFirst (stored : Option PositionRow) (lists : List (List PositionItem))
    (contractKey : String) : Option (Option String × Option String) :=
  ((if ∀ items ∈ lists, contractKey ∈ items.map PositionItem.contractKey then stored
    else none).map PositionRow.names).or
    ((firstItem (stretch lists contractKey).flatten contractKey).map PositionItem.names)

/-- Neither a list that was read nor a row from before is to be kept for the account. -/
def NothingToKeep (db : Brokerage) (items : List AccountItem) (accountId : String) : Prop :=
  match lastRead items accountId with
  | some acc => acc.positions.items = []
  | none => ∀ r ∈ db.positions.rows, r.accountId ≠ accountId

/-- The last item that replaces the positions of an account is a list, under each of whose keys the
last item has the names under which the key came in; or it is no list, where there is nothing to
keep. -/
def LastReplaces (db : Brokerage) (items : List AccountItem) (accountId : String)
    (acc : AccountItem) : Prop :=
  if acc.positions.isList then
    ∀ contractKey, ∀ p ∈ lastItem acc.positions.items contractKey,
      namesFirst (db.positions.get (accountId, contractKey)) (replacements items accountId)
        contractKey = some p.names
  else NothingToKeep db items accountId

/-- No item raises, and for each account the last one that replaces its positions does so as it
should. -/
def SnapshotFits (db : Brokerage) (items : List AccountItem) : Prop :=
  (∀ acc ∈ items, acc.validAccountId.isSome → acc.overflows = false) ∧
    ∀ accountId, ∀ acc ∈ items.reverse.find? (fun acc => acc.Replaces accountId),
      LastReplaces db items accountId acc

/-! ## One list -/

/-- A row as an upsert leaves it that found another under its key. -/
def keepNames (old r : PositionRow) : PositionRow :=
  { r with symbol := old.symbol, secType := old.secType }

theorem firstRow_append (rows rows' : List PositionRow) (k : String) :
    firstRow (rows ++ rows') k = (firstRow rows k).or (firstRow rows' k) :=
  List.find?_append

theorem lastRow_append_singleton (rows : List PositionRow) (r : PositionRow) (k : String) :
    lastRow (rows ++ [r]) k = if r.contractKey = k then some r else lastRow rows k := by
  rw [lastRow, List.reverse_append, List.reverse_singleton, List.singleton_append, firstRow,
    List.find?_cons]
  by_cases h : r.contractKey = k
  · simp [h]
  · simp [h, lastRow, firstRow]

theorem lastRow_eq_none_iff {rows : List PositionRow} {k : String} :
    lastRow rows k = none ↔ k ∉ rows.map PositionRow.contractKey := by
  simp [lastRow, firstRow]

theorem firstRow_eq_none_iff {rows : List PositionRow} {k : String} :
    firstRow rows k = none ↔ k ∉ rows.map PositionRow.contractKey := by
  simp [firstRow]

theorem get_upsertPosition {t : Sql.Table PositionRow.key} {r : PositionRow}
    {k : String × String} :
    (upsertPosition t r).get k =
      if r.key = k then some (((t.get k).map (keepNames · r)).getD r) else t.get k := by
  unfold upsertPosition
  refine Sql.Table.get_upsert.trans ?_
  split_ifs with hk
  · cases hget : t.get k with
    | none => rfl
    | some old =>
      obtain ⟨-, hold⟩ := Sql.Table.get_eq_some_iff.1 hget
      obtain ⟨haccount, hcontract⟩ := Prod.mk.inj (hk.trans hold.symm)
      simp [keepNames, haccount, hcontract]
  · rfl

/-- The rows of a list after its upserts: the last under each key, with the symbol and the security
type of the row that was stored, or of the first. -/
theorem get_upsertPositions {t : Sql.Table PositionRow.key} {a : String} {rows : List PositionRow}
    (hrows : ∀ r ∈ rows, r.accountId = a) (k : String) :
    (rows.foldl upsertPosition t).get (a, k) =
      (lastRow rows k).elim (t.get (a, k)) fun r =>
        (((t.get (a, k)).or (firstRow rows k)).map (keepNames · r)).or (some r) := by
  induction rows using List.reverseRecOn with
  | nil => rfl
  | append_singleton rows r ih =>
    have hr : r.accountId = a := hrows r (by simp)
    have ih := ih fun r' hr' => hrows r' (by simp [hr'])
    have hkey : r.key = (a, k) ↔ r.contractKey = k := by
      simp [PositionRow.key, hr]
    rw [List.foldl_append, List.foldl_cons, List.foldl_nil, get_upsertPosition, ih,
      lastRow_append_singleton, firstRow_append]
    by_cases hk : r.contractKey = k
    · rw [if_pos (hkey.2 hk), if_pos hk]
      cases hlast : lastRow rows k with
      | none =>
        have hfirst : firstRow rows k = none := firstRow_eq_none_iff.2 (lastRow_eq_none_iff.1 hlast)
        have hsingle : firstRow [r] k = some r := by simp [firstRow, hk]
        rw [hfirst, hsingle]
        cases t.get (a, k) with
        | none => rfl
        | some old => rfl
      | some r' =>
        have hne : firstRow rows k ≠ none := fun h => by
          rw [lastRow_eq_none_iff.2 (firstRow_eq_none_iff.1 h)] at hlast
          cases hlast
        obtain ⟨f, hf⟩ := Option.ne_none_iff_exists'.1 hne
        rw [hf]
        cases t.get (a, k) with
        | none => rfl
        | some old => rfl
    · rw [if_neg (hkey.not.2 hk), if_neg hk]
      have hsingle : firstRow [r] k = none := by simp [firstRow, hk]
      rw [hsingle, Option.or_none]

/-- The deletion of what is not in a list. -/
theorem get_delete_unseen {t : Sql.Table PositionRow.key} {a k : String} {seenKeys : List String} :
    (t.delete fun r => r.accountId = a ∧ r.contractKey ∉ seenKeys).get (a, k) =
      if k ∈ seenKeys then t.get (a, k) else none := by
  rw [Sql.Table.get_delete]
  cases hget : t.get (a, k) with
  | none => simp
  | some r =>
    obtain ⟨haccount, hcontract⟩ := Prod.mk.inj (Sql.Table.get_eq_some_iff.1 hget).2
    by_cases hk : k ∈ seenKeys
    · simp [Option.filter, haccount, hcontract, hk]
    · simp [Option.filter, haccount, hcontract, hk]

/-- The rows of an account after a list replaced them. -/
theorem get_replacePositions {t : Sql.Table PositionRow.key} {now : Instant} {a : String}
    {items : List PositionItem} (k : String) :
    (replacePositions now a items t).get (a, k) =
      (lastRow (items.map (positionRow now a)) k).elim none fun r =>
        (((t.get (a, k)).or (firstRow (items.map (positionRow now a)) k)).map
          (keepNames · r)).or (some r) := by
  have hrows : ∀ r ∈ items.map (positionRow now a), r.accountId = a := by
    intro r hr
    obtain ⟨p, -, rfl⟩ := List.mem_map.1 hr
    rfl
  unfold replacePositions
  dsimp only
  rw [get_delete_unseen, get_upsertPositions hrows]
  cases hlast : lastRow (items.map (positionRow now a)) k with
  | none => rw [if_neg (lastRow_eq_none_iff.1 hlast), Option.elim_none]
  | some r =>
    have hk : k ∈ (items.map (positionRow now a)).map PositionRow.contractKey := by
      by_contra hk
      rw [lastRow_eq_none_iff.2 hk] at hlast
      cases hlast
    rw [if_pos hk, Option.elim_some, Option.elim_some]

theorem get_replacePositions_of_ne {t : Sql.Table PositionRow.key} {now : Instant} {a b : String}
    {items : List PositionItem} (hne : b ≠ a) (k : String) :
    (replacePositions now a items t).get (b, k) = t.get (b, k) := by
  have hupserts : ∀ (rows : List PositionRow) (t : Sql.Table PositionRow.key),
      (∀ r ∈ rows, r.accountId = a) → (rows.foldl upsertPosition t).get (b, k) = t.get (b, k) := by
    intro rows
    induction rows with
    | nil => exact fun t _ => rfl
    | cons r rows ih =>
      intro t hrows
      have hkey : r.key ≠ (b, k) := by
        intro heq
        exact hne ((Prod.mk.inj heq).1.symm.trans (hrows r List.mem_cons_self))
      rw [List.foldl_cons, ih _ fun r' hr' => hrows r' (List.mem_cons_of_mem _ hr'),
        get_upsertPosition, if_neg hkey]
  unfold replacePositions
  dsimp only
  rw [Sql.Table.get_delete, hupserts]
  · cases hget : t.get (b, k) with
    | none => rfl
    | some r =>
      obtain ⟨haccount, -⟩ := Prod.mk.inj (Sql.Table.get_eq_some_iff.1 hget).2
      simp [Option.filter, haccount, hne]
  · intro r hr
    obtain ⟨p, -, rfl⟩ := List.mem_map.1 hr
    rfl

/-! ## One item -/

variable {now : Instant} {db db' : Brokerage} {acc : AccountItem} {a : String}
  {items pre post : List AccountItem}

theorem get_writeItem_of_not (h : ¬ acc.Replaces a) (k : String) :
    (writeItem now db acc).positions.get (a, k) = db.positions.get (a, k) := by
  unfold writeItem
  cases hvalid : acc.validAccountId with
  | none => rfl
  | some b =>
    unfold writeAccount
    dsimp only
    split_ifs with hreplaces
    · have hne : a ≠ b := fun heq => h ⟨heq ▸ hvalid, hreplaces⟩
      exact get_replacePositions_of_ne hne k
    · rfl

theorem get_writeItem (h : acc.Replaces a) (k : String) :
    (writeItem now db acc).positions.get (a, k) =
      (lastRow (acc.positionRows now a) k).elim none fun r =>
        (((db.positions.get (a, k)).or (firstRow (acc.positionRows now a) k)).map
          (keepNames · r)).or (some r) := by
  unfold writeItem
  rw [h.1]
  unfold writeAccount
  dsimp only
  rw [if_pos h.2]
  exact get_replacePositions k

theorem AccountItem.Replaces.of_read (hvalid : acc.validAccountId = some a)
    (hread : acc.positionsRead) : acc.Replaces a := by
  refine ⟨hvalid, ?_⟩
  obtain ⟨hlist, hok⟩ := of_decide_eq_true hread
  refine decide_eq_true ⟨?_, hok⟩
  cases hp : acc.positions with
  | missing => simp [hp, PositionsField.isList] at hlist
  | _ => rfl

/-! ## The names under a key -/

theorem firstRow_positionRows (acc : AccountItem) (k : String) :
    firstRow (acc.positionRows now a) k =
      (firstItem acc.positions.items k).map (positionRow now a) := by
  rw [firstRow, AccountItem.positionRows, List.find?_map]
  rfl

theorem lastRow_positionRows (acc : AccountItem) (k : String) :
    lastRow (acc.positionRows now a) k =
      (lastItem acc.positions.items k).map (positionRow now a) := by
  rw [lastRow, firstRow, AccountItem.positionRows, ← List.map_reverse, List.find?_map]
  rfl

theorem names_positionRow (p : PositionItem) : (positionRow now a p).names = p.names := rfl

theorem firstItem_isSome_iff {ps : List PositionItem} {k : String} :
    (firstItem ps k).isSome ↔ k ∈ ps.map PositionItem.contractKey := by
  simp [firstItem, List.find?_isSome]

theorem lastItem_isSome_iff {ps : List PositionItem} {k : String} :
    (lastItem ps k).isSome ↔ k ∈ ps.map PositionItem.contractKey := by
  rw [lastItem, firstItem_isSome_iff, List.map_reverse, List.mem_reverse]

/-- One more list: with the key it keeps the names, or brings them; without it they are gone. -/
theorem namesFirst_append (stored : Option PositionRow) (lists : List (List PositionItem))
    (ps : List PositionItem) (k : String) :
    namesFirst stored (lists ++ [ps]) k =
      if k ∈ ps.map PositionItem.contractKey then
        (namesFirst stored lists k).or ((firstItem ps k).map PositionItem.names)
      else none := by
  by_cases hk : k ∈ ps.map PositionItem.contractKey
  · have hstretch : stretch (lists ++ [ps]) k = stretch lists k ++ [ps] :=
      List.rtakeWhile_concat_pos _ _ _ (decide_eq_true hk)
    have hfirst : firstItem ((stretch lists k).flatten ++ ps) k =
        (firstItem (stretch lists k).flatten k).or (firstItem ps k) := List.find?_append
    rw [if_pos hk, namesFirst, namesFirst, hstretch, List.flatten_append, List.flatten_singleton,
      hfirst, Option.map_or, Option.or_assoc]
    simp only [List.forall_mem_append, List.forall_mem_singleton, hk, and_true]
  · have hstretch : stretch (lists ++ [ps]) k = [] :=
      List.rtakeWhile_concat_neg _ _ _ (by simpa using hk)
    have hsome : ¬ ∀ items ∈ lists ++ [ps], k ∈ items.map PositionItem.contractKey := fun h =>
      hk (h ps (List.mem_append_right _ (List.mem_singleton_self _)))
    rw [if_neg hk, namesFirst, hstretch, if_neg hsome]
    rfl

theorem replacements_of_not (h : ∀ acc ∈ items, ¬ acc.Replaces a) : replacements items a = [] := by
  rw [replacements, List.filter_eq_nil_iff.2 fun acc hacc => by simpa using h acc hacc]
  rfl

theorem replacements_append (items items' : List AccountItem) (a : String) :
    replacements (items ++ items') a = replacements items a ++ replacements items' a := by
  rw [replacements, List.filter_append, List.map_append]
  rfl

variable (now) in
/-- After any items the names under a key are those under which it came in. -/
theorem names_writeItems (items : List AccountItem) (a k : String) :
    ((items.foldl (writeItem now) db).positions.get (a, k)).map PositionRow.names =
      namesFirst (db.positions.get (a, k)) (replacements items a) k := by
  induction items using List.reverseRecOn with
  | nil =>
    simp [namesFirst, replacements, stretch, firstItem]
  | append_singleton items acc ih =>
    rw [List.foldl_append, List.foldl_cons, List.foldl_nil, replacements_append]
    by_cases hacc : acc.Replaces a
    · have hone : replacements [acc] a = [acc.positions.items] := by simp [replacements, hacc]
      rw [hone, namesFirst_append, get_writeItem hacc, ← ih, lastRow_positionRows,
        firstRow_positionRows]
      by_cases hk : k ∈ acc.positions.items.map PositionItem.contractKey
      · rw [if_pos hk]
        obtain ⟨p, hp⟩ := Option.isSome_iff_exists.1 (lastItem_isSome_iff.2 hk)
        obtain ⟨q, hq⟩ := Option.isSome_iff_exists.1 (firstItem_isSome_iff.2 hk)
        rw [hp, hq]
        cases (items.foldl (writeItem now) db).positions.get (a, k) with
        | none => rfl
        | some old => rfl
      · rw [if_neg hk, Option.not_isSome_iff_eq_none.1 (lastItem_isSome_iff.not.2 hk)]
        rfl
    · have hnone : replacements [acc] a = [] := replacements_of_not (by simpa using hacc)
      rw [get_writeItem_of_not hacc, ih, hnone, List.append_nil]

/-! ## A snapshot -/

theorem get_writeItems_of_not (h : ∀ acc ∈ post, ¬ acc.Replaces a) (k : String) :
    (post.foldl (writeItem now) db).positions.get (a, k) = db.positions.get (a, k) := by
  induction post generalizing db with
  | nil => rfl
  | cons acc post ih =>
    rw [List.foldl_cons, ih fun acc' h' => h acc' (List.mem_cons_of_mem _ h'),
      get_writeItem_of_not (h acc List.mem_cons_self)]

theorem lastRead_of_not (h : ∀ acc ∈ items, ¬ acc.Replaces a) : lastRead items a = none := by
  rw [lastRead, List.find?_eq_none]
  intro acc hacc hread
  obtain ⟨hvalid, hread⟩ := of_decide_eq_true hread
  exact h acc (List.mem_reverse.1 hacc) (.of_read hvalid hread)

theorem lastRead_of_split (hvalid : acc.validAccountId = some a) (hread : acc.positionsRead)
    (hpost : ∀ acc' ∈ post, ¬ acc'.Replaces a) :
    lastRead (pre ++ acc :: post) a = some acc := by
  have hnone := lastRead_of_not hpost
  rw [lastRead] at hnone ⊢
  rw [List.reverse_append, List.reverse_cons, List.append_assoc, List.find?_append, hnone,
    Option.none_or, List.singleton_append, List.find?_cons_of_pos]
  exact decide_eq_true ⟨hvalid, hread⟩

/-- The last item for an account that replaces its positions, with what stands around it. -/
theorem exists_split_of_find (h : items.reverse.find? (fun acc => acc.Replaces a) = some acc) :
    ∃ pre post, items = pre ++ acc :: post ∧ acc.Replaces a ∧
      ∀ acc' ∈ post, ¬ acc'.Replaces a := by
  obtain ⟨hacc, before, after, heq, hbefore⟩ := List.find?_eq_some_iff_append.1 h
  refine ⟨after.reverse, before.reverse, ?_, of_decide_eq_true hacc, fun acc' h' => ?_⟩
  · rw [← List.reverse_reverse items, heq]
    simp
  · simpa using hbefore acc' (List.mem_reverse.1 h')

theorem keepNames_eq_iff {first r : PositionRow} :
    keepNames first r = r ↔ first.names = r.names := by
  obtain ⟨⟩ := r
  simp [keepNames, PositionRow.names]

/-- A row that stands in for the last of a list is that row where the names are the same. -/
theorem stored_eq_some_iff {first : Option PositionRow} (hfirst : first.isSome) (r : PositionRow) :
    (first.map (keepNames · r)).or (some r) = some r ↔
      first.map PositionRow.names = some r.names := by
  obtain ⟨row, rfl⟩ := Option.isSome_iff_exists.1 hfirst
  simp [keepNames_eq_iff]

theorem namesFirst_of_split (stored : Option PositionRow) (hacc : acc.Replaces a)
    (hpost : ∀ acc' ∈ post, ¬ acc'.Replaces a) {k : String}
    (hk : k ∈ acc.positions.items.map PositionItem.contractKey) :
    namesFirst stored (replacements (pre ++ acc :: post) a) k =
      (namesFirst stored (replacements pre a) k).or
        ((firstItem acc.positions.items k).map PositionItem.names) := by
  have hone : replacements (acc :: post) a = [acc.positions.items] := by
    have hnone := replacements_of_not hpost
    rw [replacements] at hnone ⊢
    rw [List.filter_cons_of_pos (by simpa using hacc), List.map_cons, hnone]
  rw [replacements_append, hone, namesFirst_append, if_pos hk]

theorem positions_items_of_not_list (h : acc.positions.isList = false) :
    acc.positions.items = [] := by
  cases hp : acc.positions with
  | list items => simp [hp, PositionsField.isList] at h
  | _ => rfl

/-- Every key of a list is stored as it is where the names are those under which it came in. -/
theorem stored_list_iff (hacc : acc.Replaces a) (hpost : ∀ acc' ∈ post, ¬ acc'.Replaces a)
    (k : String) :
    (((pre ++ acc :: post).foldl (writeItem now) db).positions.get (a, k) =
        lastRow (acc.positionRows now a) k) ↔
      ∀ p ∈ lastItem acc.positions.items k,
        namesFirst (db.positions.get (a, k)) (replacements (pre ++ acc :: post) a) k =
          some p.names := by
  rw [List.foldl_append, List.foldl_cons, get_writeItems_of_not hpost, get_writeItem hacc,
    lastRow_positionRows, firstRow_positionRows]
  by_cases hk : k ∈ acc.positions.items.map PositionItem.contractKey
  · obtain ⟨p, hp⟩ := Option.isSome_iff_exists.1 (lastItem_isSome_iff.2 hk)
    obtain ⟨q, hq⟩ := Option.isSome_iff_exists.1 (firstItem_isSome_iff.2 hk)
    rw [namesFirst_of_split _ hacc hpost hk, ← names_writeItems now, hp, hq,
      Option.map_some, Option.elim_some, Option.map_some, stored_eq_some_iff (by simp),
      Option.map_or]
    simp [names_positionRow]
  · rw [Option.not_isSome_iff_eq_none.1 (lastItem_isSome_iff.not.2 hk)]
    simp

variable (now) in
/-- No row is expected under any key where there is nothing to keep. -/
theorem expectedRow_eq_none_iff :
    (∀ k, expectedRow now db items a k = none) ↔ NothingToKeep db items a := by
  unfold expectedRow NothingToKeep
  cases lastRead items a with
  | some acc =>
    dsimp only
    rw [List.eq_nil_iff_forall_not_mem]
    constructor
    · intro h p hp
      have hk := lastRow_eq_none_iff.1 (h p.contractKey)
      refine hk (List.mem_map.2 ⟨positionRow now a p, List.mem_map_of_mem hp, rfl⟩)
    · intro h k
      rw [lastRow_positionRows, List.eq_nil_iff_forall_not_mem.2 h]
      rfl
  | none =>
    dsimp only
    constructor
    · intro h r hr haccount
      have hget : db.positions.get (a, r.contractKey) = some r :=
        Sql.Table.get_eq_some_iff.2 ⟨hr, by rw [PositionRow.key, haccount]⟩
      rw [h] at hget
      cases hget
    · intro h k
      by_contra hne
      obtain ⟨r, hr⟩ := Option.ne_none_iff_exists'.1 hne
      obtain ⟨hmem, hkey⟩ := Sql.Table.get_eq_some_iff.1 hr
      exact h r hmem (Prod.mk.inj hkey).1

/-- An account, by the last item that replaces its positions. -/
theorem stored_iff_lastReplaces (hacc : acc.Replaces a)
    (hpost : ∀ acc' ∈ post, ¬ acc'.Replaces a) :
    (∀ k, ((pre ++ acc :: post).foldl (writeItem now) db).positions.get (a, k) =
        expectedRow now db (pre ++ acc :: post) a k) ↔
      LastReplaces db (pre ++ acc :: post) a acc := by
  unfold LastReplaces
  by_cases hlist : acc.positions.isList
  · have hread : acc.positionsRead := decide_eq_true ⟨hlist, (of_decide_eq_true hacc.2).2⟩
    rw [if_pos hlist]
    refine forall_congr' fun k => ?_
    rw [expectedRow, lastRead_of_split hacc.1 hread hpost]
    exact stored_list_iff hacc hpost k
  · have hnil := positions_items_of_not_list (by simpa using hlist)
    rw [if_neg hlist, ← expectedRow_eq_none_iff now]
    refine forall_congr' fun k => ?_
    rw [List.foldl_append, List.foldl_cons, get_writeItems_of_not hpost, get_writeItem hacc,
      lastRow_positionRows, hnil]
    exact eq_comm

/-- The sync stores exactly the snapshot if and only if no item raises and, for each account, the
last item that replaces its positions carries a list that brings no other names under a key, or no
list where there is nothing to keep. -/
theorem storesSnapshot_iff (now : Instant) (db : Brokerage)
    (accountsList : Option (List AccountItem)) :
    StoresSnapshot now db accountsList ↔ SnapshotFits db (accountsList.getD []) := by
  have hlist : syncAccountsSnapshotToTables now db accountsList =
      syncAccountsSnapshotToTables now db (some (accountsList.getD [])) := rfl
  unfold StoresSnapshot SnapshotFits
  rw [hlist]
  generalize accountsList.getD [] = items
  simp only [syncAccounts_eq_some_iff, and_assoc, exists_and_left, exists_eq_left']
  refine and_congr_right fun _ => forall_congr' fun a => ?_
  cases hfind : items.reverse.find? (fun acc => acc.Replaces a) with
  | none =>
    have hnone : ∀ acc ∈ items, ¬ acc.Replaces a := by
      simpa using List.find?_eq_none.1 hfind
    refine iff_of_true (fun k => ?_) fun acc hacc => ?_
    · rw [expectedRow, lastRead_of_not hnone, get_writeItems_of_not hnone]
    · cases hacc
  | some acc =>
    obtain ⟨pre, post, rfl, hacc, hpost⟩ := exists_split_of_find hfind
    rw [stored_iff_lastReplaces hacc hpost]
    simp

/-! ## A failed read -/

/-- Ten shares, as a broker sends them. -/
def samplePosition : PositionItem where
  symbol := some "AAPL"
  secType := some "STK"
  sec_type := none
  exchange := none
  currency := some "USD"
  position := .int 10
  avgCost := .float (.fin 100)
  avg_cost := .null
  lastTradeDateOrContractMonth := none
  expiry := none
  strike := .null
  right := none

/-- An account's item with these positions. -/
def sampleAccount (positions : PositionsField) : AccountItem where
  accountId := some "U1"
  account := none
  summary := none
  positions
  positionsOk := none

/-- The ten shares are stored, and a snapshot whose positions are null deletes them. -/
theorem not_storesSnapshot_null :
    ¬ StoresSnapshot 1
      ((syncAccountsSnapshotToTables 0 ⟨.empty, .empty⟩
        (some [sampleAccount (.list [some samplePosition])])).getD ⟨.empty, .empty⟩)
      (some [sampleAccount .null]) := by
  rintro ⟨db', hsync, hstored⟩
  obtain rfl := Option.some.inj hsync
  exact absurd (hstored "U1" "AAPL|STK|||") (by decide +kernel)

end Persistence
