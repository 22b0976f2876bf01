import BifrostTrade.Portfolio.OptionStockLinks

/-!
# The two readers of option-stock links

Under each option id the bulk reader answers what the reader of one option fill answers, as long as
a linked id is among the first ids of its account and no other account asks for it
(`bulkAgrees_iff`): past `maxBulkIds` an id is not asked for, and an id of two accounts gets the
links of the account that came last.
-/

namespace Portfolio

open Py

/-! ## What agreement is -/

/-- The same links, in any order, and the same total. -/
structure SameLinks (a b : StockLinks) : Prop where
  links : ∀ l, l ∈ a.links ↔ l ∈ b.links
  total : a.slippageTotal = b.slippageTotal

/-- What the bulk reader answers for an id; an id that is absent has no links. -/
def bulkAnswer (db : LinkDb) (batches : LinkBatches) (id : ℤ) : StockLinks :=
  ((getOptionStockLinksBulk db batches).lookup (toString id)).getD .empty

/-- Each id is answered as it is for one option fill. -/
def BulkAgrees (db : LinkDb) (batches : LinkBatches) : Prop :=
  ∀ b ∈ batches, ∀ id ∈ b.2, SameLinks (bulkAnswer db batches id) (getOptionStockLinks db b.1 id)

/-- A stock fill of the account is linked to the option fill. -/
def Linked (db : LinkDb) (acc : String) (id : ℤ) : Prop :=
  ∃ l ∈ db.links.rows, l.accountId = acc ∧ l.optionAccountExecutionsId = id ∧
    ∃ e ∈ db.executionsFinal,
      e.accountExecutionsId = l.stockAccountExecutionsId ∧ e.accountId = some acc

/-- The ids asked for under an account. -/
def idsOf (batches : LinkBatches) (acc : String) : List ℤ :=
  (batches.filter fun b => linkAccount b.1 = acc).flatMap Prod.snd

/-- The id is one of the first that are asked for under the account. -/
def WithinCap (batches : LinkBatches) (acc : String) (id : ℤ) : Prop :=
  id ∈ (firstSeen (idsOf batches acc)).take maxBulkIds

/-- No other account asks for the id. -/
def OnlyAccount (batches : LinkBatches) (acc : String) (id : ℤ) : Prop :=
  ∀ b ∈ batches, id ∈ b.2 → linkAccount b.1 = acc

/-! ## One option fill -/

section One

variable {db : LinkDb} {acc : String} {id : ℤ}

/-- The linked fills of an option fill, in the order they are read. -/
def LinkDb.fillsOf (db : LinkDb) (acc : String) (id : ℤ) : List LinkedFill :=
  sortedBy LinkedFill.timeOrder (db.joined.filter fun p =>
    p.1.accountId = acc ∧ p.1.optionAccountExecutionsId = id)

/-- The answer for an option fill of the account. -/
def LinkDb.answer (db : LinkDb) (acc : String) (id : ℤ) : StockLinks :=
  .ofLinks ((db.fillsOf acc id).map fun p => p.columns.withSlippage)

theorem getOptionStockLinks_of_blank {accountId : Option String} (h : linkAccount accountId = "") :
    getOptionStockLinks db accountId id = .empty :=
  if_pos h

theorem getOptionStockLinks_of_account {accountId : Option String}
    (h : linkAccount accountId ≠ "") :
    getOptionStockLinks db accountId id = db.answer (linkAccount accountId) id := by
  have hrows : ∀ ps : List LinkedFill, (ps.map LinkedFill.columns).map LinkColumns.withSlippage =
      ps.map fun p => p.columns.withSlippage := fun ps => List.map_map ..
  dsimp only [getOptionStockLinks]
  rw [if_neg h, hrows]
  rfl

theorem mem_joined {p : LinkedFill} :
    p ∈ db.joined ↔ p.1 ∈ db.links.rows ∧ p.2 ∈ db.executionsFinal ∧
      p.2.accountExecutionsId = p.1.stockAccountExecutionsId ∧
        p.2.accountId = some p.1.accountId := by
  obtain ⟨l, e⟩ := p
  simp only [LinkDb.joined, List.mem_flatMap, List.mem_map, List.mem_filter, decide_eq_true_eq,
    Prod.mk.injEq]
  constructor
  · rintro ⟨l', hl, e', ⟨he, hjoin⟩, rfl, rfl⟩
    exact ⟨hl, he, hjoin⟩
  · rintro ⟨hl, he, hjoin⟩
    exact ⟨l, hl, e, ⟨he, hjoin⟩, rfl, rfl⟩

theorem mem_fillsOf {p : LinkedFill} :
    p ∈ db.fillsOf acc id ↔
      p ∈ db.joined ∧ p.1.accountId = acc ∧ p.1.optionAccountExecutionsId = id := by
  rw [LinkDb.fillsOf, mem_sortedBy, List.mem_filter, decide_eq_true_eq]

theorem linked_iff : Linked db acc id ↔ db.fillsOf acc id ≠ [] := by
  constructor
  · rintro ⟨l, hl, rfl, hid, e, he, hstock, hacc⟩
    exact List.ne_nil_of_mem
      (mem_fillsOf.2 ⟨mem_joined.2 ⟨hl, he, hstock, hacc⟩, rfl, hid⟩ : (l, e) ∈ _)
  · intro hne
    obtain ⟨p, hp⟩ := List.exists_mem_of_ne_nil _ hne
    obtain ⟨hjoin, rfl, hid⟩ := mem_fillsOf.1 hp
    obtain ⟨hl, he, hstock, hacc⟩ := mem_joined.1 hjoin
    exact ⟨p.1, hl, rfl, hid, p.2, he, hstock, hacc⟩

theorem answer_of_not_linked (h : ¬ Linked db acc id) : db.answer acc id = .empty := by
  rw [linked_iff, not_not] at h
  rw [LinkDb.answer, h]
  rfl

theorem exists_link (h : Linked db acc id) : ∃ l, l ∈ (db.answer acc id).links := by
  obtain ⟨p, hp⟩ := List.exists_mem_of_ne_nil _ (linked_iff.1 h)
  exact ⟨_, List.mem_map_of_mem hp⟩

/-- A link belongs to one account. -/
theorem account_of_link {acc' : String} {id' : ℤ} {l : StockLink}
    (h : l ∈ (db.answer acc id).links) (h' : l ∈ (db.answer acc' id').links) : acc = acc' := by
  obtain ⟨p, hp, rfl⟩ := List.mem_map.1 h
  obtain ⟨q, hq, heq⟩ := List.mem_map.1 h'
  obtain ⟨hjoin, hacc, -⟩ := mem_fillsOf.1 hp
  obtain ⟨hjoin', hacc', -⟩ := mem_fillsOf.1 hq
  have hid : q.1.linkId = p.1.linkId := congrArg (fun l => l.linkId) heq
  have hrow : q.1 = p.1 := db.links.eq_of_clash OptionStockLinkRow.clash_symm
    (mem_joined.1 hjoin').1 (mem_joined.1 hjoin).1 (.inl hid)
  rw [← hacc, ← hacc', hrow]

end One

/-! ## One statement -/

section Statement

variable {db : LinkDb} {acc : String} {id : ℤ}

/-- The rows of an id in the statement of its account. -/
theorem filter_bulkRows {uniqIds : List ℤ} (h : id ∈ uniqIds) :
    (((bulkRows db acc uniqIds).map LinkColumns.withSlippage).filter fun d =>
      d.optionAccountExecutionsId = id) =
        (db.fillsOf acc id).map fun p => p.columns.withSlippage := by
  have hsort : sortedBy LinkedFill.bulkOrder (db.joined.filter fun p =>
      p.1.accountId = acc ∧ p.1.optionAccountExecutionsId = id) = db.fillsOf acc id := by
    refine sortedBy_congr fun p hp q hq => ?_
    have hp := (of_decide_eq_true (List.mem_filter.1 hp).2).2
    have hq := (of_decide_eq_true (List.mem_filter.1 hq).2).2
    simp only [LinkedFill.bulkOrder, Prod.Lex.toLex_le_toLex, hp, hq, lt_irrefl, false_or,
      true_and]
  rw [bulkRows, List.map_map, List.filter_map, ← hsort]
  show ((sortedBy LinkedFill.bulkOrder _).filter fun p =>
    p.1.optionAccountExecutionsId = id).map _ = _
  rw [filter_sortedBy, List.filter_filter]
  congr 2
  refine List.filter_congr fun p _ => ?_
  rw [← Bool.decide_and, decide_eq_decide]
  constructor
  · rintro ⟨hid, hacc, -⟩
    exact ⟨hacc, hid⟩
  · rintro ⟨hacc, hid⟩
    exact ⟨hid, hacc, hid ▸ h⟩

/-- An id of the statement has an entry where it has links, and the entry is its answer. -/
theorem mem_linksByOption {rawIds : List ℤ} {s : StockLinks} :
    (id, s) ∈ linksByOption db acc rawIds ↔
      id ∈ (firstSeen rawIds).take maxBulkIds ∧ Linked db acc id ∧ s = db.answer acc id := by
  simp only [linksByOption, List.mem_map, Prod.mk.injEq]
  constructor
  · rintro ⟨⟨id', links⟩, hg, rfl, rfl⟩
    obtain ⟨hkey, hlinks⟩ := mem_groupBy.1 hg
    dsimp only at hkey hlinks ⊢
    obtain ⟨d, hd, hid⟩ := List.mem_map.1 hkey
    obtain ⟨c, hc, rfl⟩ := List.mem_map.1 hd
    obtain ⟨p, hp, rfl⟩ := List.mem_map.1 hc
    obtain ⟨hjoin, hp⟩ := List.mem_filter.1 (mem_sortedBy.1 hp)
    obtain ⟨hacc, hmem⟩ := of_decide_eq_true hp
    have hid : p.1.optionAccountExecutionsId = id' := hid
    rw [hid] at hmem
    refine ⟨hmem, linked_iff.2 (List.ne_nil_of_mem (mem_fillsOf.2 ⟨hjoin, hacc, hid⟩)), ?_⟩
    rw [hlinks, filter_bulkRows hmem, LinkDb.answer]
  · rintro ⟨hmem, hlinked, rfl⟩
    obtain ⟨p, hp⟩ := List.exists_mem_of_ne_nil _ (linked_iff.1 hlinked)
    obtain ⟨hjoin, hacc, hid⟩ := mem_fillsOf.1 hp
    have hrow : p ∈ sortedBy LinkedFill.bulkOrder (db.joined.filter fun p =>
        p.1.accountId = acc ∧ p.1.optionAccountExecutionsId ∈ (firstSeen rawIds).take maxBulkIds) :=
      mem_sortedBy.2 (List.mem_filter.2 ⟨hjoin, decide_eq_true ⟨hacc, hid ▸ hmem⟩⟩)
    refine ⟨(id, (db.fillsOf acc id).map fun p => p.columns.withSlippage),
      mem_groupBy.2 ⟨List.mem_map.2 ⟨p.columns.withSlippage, ?_, hid⟩, ?_⟩, rfl, rfl⟩
    · exact List.mem_map_of_mem (List.mem_map_of_mem hrow)
    · exact (filter_bulkRows hmem).symm

end Statement

/-! ## All accounts -/

section Bulk

variable {db : LinkDb} {batches : LinkBatches} {acc : String} {id : ℤ}

theorem mem_idsOf : id ∈ idsOf batches acc ↔ ∃ b ∈ batches, linkAccount b.1 = acc ∧ id ∈ b.2 := by
  simp only [idsOf, List.mem_flatMap, List.mem_filter, decide_eq_true_eq, and_assoc]

theorem WithinCap.mem_idsOf (h : WithinCap batches acc id) : id ∈ idsOf batches acc :=
  mem_firstSeen.1 (List.mem_of_mem_take h)

/-- The ids that are kept under an account are those asked for under it. -/
theorem map_filter_askedIds (hacc : acc ≠ "") (bs : LinkBatches) :
    ((askedIds bs).filter fun x => x.1 = acc).map Prod.snd = idsOf bs acc := by
  have hone : ∀ b : Option String × List ℤ,
      ((if linkAccount b.1 = "" then []
        else b.2.map fun id => (linkAccount b.1, id)).filter fun x => x.1 = acc).map Prod.snd =
          if linkAccount b.1 = acc then b.2 else [] := by
    intro b
    by_cases hb : linkAccount b.1 = acc
    · simp [hb, hacc, List.filter_map, Function.comp_def]
    · by_cases hblank : linkAccount b.1 = ""
      · simp [hblank, hacc.symm]
      · simp [hblank, hb, List.filter_map, Function.comp_def]
  induction bs with
  | nil => rfl
  | cons b bs ih =>
    rw [askedIds, List.flatMap_cons, List.filter_append, List.map_append, hone b]
    rw [askedIds] at ih
    by_cases hb : linkAccount b.1 = acc
    · simp [ih, idsOf, hb]
    · simp [ih, idsOf, hb]

theorem ne_of_mem_askedIds {x : String × ℤ} (h : x ∈ askedIds batches) : x.1 ≠ "" := by
  obtain ⟨b, -, hx⟩ := List.mem_flatMap.1 h
  split_ifs at hx with hblank
  · exact absurd hx List.not_mem_nil
  · obtain ⟨id, -, rfl⟩ := List.mem_map.1 hx
    exact hblank

theorem of_mem_mergeBatches {g : String × List ℤ} (h : g ∈ mergeBatches batches) :
    g.1 ≠ "" ∧ g.2 = idsOf batches g.1 := by
  obtain ⟨g, hg, rfl⟩ := List.mem_map.1 h
  obtain ⟨hkey, hvals⟩ := mem_groupBy.1 hg
  obtain ⟨x, hx, hacc⟩ := List.mem_map.1 hkey
  have hne : g.1 ≠ "" := hacc ▸ ne_of_mem_askedIds hx
  exact ⟨hne, by rw [hvals, map_filter_askedIds hne]⟩

theorem mem_mergeBatches (hacc : acc ≠ "") (hid : id ∈ idsOf batches acc) :
    (acc, idsOf batches acc) ∈ mergeBatches batches := by
  rw [← map_filter_askedIds hacc, List.mem_map] at hid
  obtain ⟨x, hx, -⟩ := hid
  obtain ⟨hx, hkey⟩ := List.mem_filter.1 hx
  refine List.mem_map.2 ⟨(acc, (askedIds batches).filter fun x => x.1 = acc), mem_groupBy.2
    ⟨List.mem_map.2 ⟨x, hx, of_decide_eq_true hkey⟩, rfl⟩, ?_⟩
  exact Prod.ext rfl (map_filter_askedIds hacc batches)

/-- The bulk reader reads the links of the id under this account. -/
structure Answers (db : LinkDb) (batches : LinkBatches) (id : ℤ) (acc : String) : Prop where
  account : acc ≠ ""
  within : WithinCap batches acc id
  linked : Linked db acc id

theorem outByOption_eq : outByOption db batches =
    Dict.setItems [] ((mergeBatches batches).flatMap fun g => linksByOption db g.1 g.2) :=
  Dict.foldl_setItems ..

theorem mem_assigned {s : StockLinks} :
    ((id, s) ∈ (mergeBatches batches).flatMap fun g => linksByOption db g.1 g.2) ↔
      ∃ acc, Answers db batches id acc ∧ s = db.answer acc id := by
  rw [List.mem_flatMap]
  constructor
  · rintro ⟨g, hg, hs⟩
    obtain ⟨hacc, hids⟩ := of_mem_mergeBatches hg
    rw [hids] at hs
    obtain ⟨hmem, hlinked, hs⟩ := mem_linksByOption.1 hs
    exact ⟨g.1, ⟨hacc, hmem, hlinked⟩, hs⟩
  · rintro ⟨acc, h, hs⟩
    exact ⟨(acc, idsOf batches acc), mem_mergeBatches h.account h.within.mem_idsOf,
      mem_linksByOption.2 ⟨h.within, h.linked, hs⟩⟩

theorem bulkAnswer_eq : bulkAnswer db batches id =
    ((outByOption db batches).lookup id).getD .empty := by
  rw [bulkAnswer, getOptionStockLinksBulk, Dict.lookup_map_key toString_injective]

/-- A link that is answered was read under some account. -/
theorem exists_answers {l : StockLink} (h : l ∈ (bulkAnswer db batches id).links) :
    ∃ acc, Answers db batches id acc ∧ l ∈ (db.answer acc id).links := by
  rw [bulkAnswer_eq, outByOption_eq] at h
  cases hs : (Dict.setItems [] ((mergeBatches batches).flatMap fun g =>
      linksByOption db g.1 g.2)).lookup id with
  | none =>
    rw [hs] at h
    exact absurd h List.not_mem_nil
  | some s =>
    rw [hs, Option.getD_some] at h
    rcases Dict.of_lookup_setItems hs with hmem | hnil
    · obtain ⟨acc, hacc, rfl⟩ := mem_assigned.1 hmem
      exact ⟨acc, hacc, h⟩
    · exact absurd hnil (by simp)

theorem bulkAnswer_of_answers (h : Answers db batches id acc)
    (hone : ∀ acc', Answers db batches id acc' → acc' = acc) :
    bulkAnswer db batches id = db.answer acc id := by
  rw [bulkAnswer_eq, outByOption_eq, Dict.lookup_setItems_of_forall (mem_assigned.2 ⟨acc, h, rfl⟩)]
  · rfl
  · intro s hs
    obtain ⟨acc', h', rfl⟩ := mem_assigned.1 hs
    rw [hone acc' h']

theorem bulkAnswer_of_forall_not (h : ∀ acc, ¬ Answers db batches id acc) :
    bulkAnswer db batches id = .empty := by
  rw [bulkAnswer_eq, outByOption_eq, Dict.lookup_setItems_eq_none]
  · rfl
  · intro hmem
    obtain ⟨⟨id', s⟩, hs, rfl⟩ := List.mem_map.1 hmem
    obtain ⟨acc, hacc, -⟩ := mem_assigned.1 hs
    exact h acc hacc

/-! ## The agreement -/

theorem SameLinks.of_eq {a b : StockLinks} (h : a = b) : SameLinks a b := by
  subst h
  exact ⟨fun _ => Iff.rfl, rfl⟩

theorem onlyAccount_of_agrees (h : BulkAgrees db batches) {b : Option String × List ℤ}
    (hb : b ∈ batches) (hacc : linkAccount b.1 ≠ "") (hid : id ∈ b.2)
    (hlinked : Linked db (linkAccount b.1) id) :
    WithinCap batches (linkAccount b.1) id ∧ OnlyAccount batches (linkAccount b.1) id := by
  obtain ⟨l, hl⟩ := exists_link hlinked
  have hbulk : l ∈ (bulkAnswer db batches id).links := by
    rw [(h b hb id hid).links, getOptionStockLinks_of_account hacc]
    exact hl
  constructor
  · obtain ⟨acc, hanswers, hl'⟩ := exists_answers hbulk
    rw [account_of_link hl hl']
    exact hanswers.within
  · intro b' hb' hid'
    have hsingle := ((h b' hb' id hid').links l).1 hbulk
    have hacc' : linkAccount b'.1 ≠ "" := by
      intro hblank
      rw [getOptionStockLinks_of_blank hblank] at hsingle
      exact List.not_mem_nil hsingle
    rw [getOptionStockLinks_of_account hacc'] at hsingle
    exact account_of_link hsingle hl

/-- The bulk reader answers each id as it is answered for one option fill iff every linked id that
is asked for is within the cap of its account and asked for under no other. -/
theorem bulkAgrees_iff (db : LinkDb) (batches : LinkBatches) :
    BulkAgrees db batches ↔
      ∀ b ∈ batches, linkAccount b.1 ≠ "" → ∀ id ∈ b.2, Linked db (linkAccount b.1) id →
        WithinCap batches (linkAccount b.1) id ∧ OnlyAccount batches (linkAccount b.1) id := by
  constructor
  · intro h b hb hacc id hid hlinked
    exact onlyAccount_of_agrees h hb hacc hid hlinked
  · intro h b hb id hid
    apply SameLinks.of_eq
    by_cases hsome : ∃ acc, Answers db batches id acc
    · -- the account that is read is the one asked for
      have hone : ∀ acc, Answers db batches id acc → acc = linkAccount b.1 := by
        intro acc hacc
        obtain ⟨b', hb', rfl, hid'⟩ := mem_idsOf.1 hacc.within.mem_idsOf
        exact ((h b' hb' hacc.account id hid' hacc.linked).2 b hb hid).symm
      obtain ⟨acc, hacc⟩ := hsome
      obtain rfl := hone acc hacc
      rw [bulkAnswer_of_answers hacc hone, getOptionStockLinks_of_account hacc.account]
    · rw [not_exists] at hsome
      rw [bulkAnswer_of_forall_not hsome]
      by_cases hblank : linkAccount b.1 = ""
      · rw [getOptionStockLinks_of_blank hblank]
      · rw [getOptionStockLinks_of_account hblank, answer_of_not_linked]
        intro hlinked
        exact hsome _ ⟨hblank, (h b hb hblank id hid hlinked).1, hlinked⟩

end Bulk

/-! ## A linked option fill -/

/-- An assigned option with its stock fill. -/
def sampleLink : OptionStockLinkRow where
  linkId := 1
  accountId := "U1"
  optionAccountExecutionsId := 4000
  stockAccountExecutionsId := 9000
  role := some "assignment"
  note := none
  createdAtEpoch := 1760000000

/-- The stock fill. -/
def sampleStockFill : FinalExecution where
  accountExecutionsId := 9000
  accountId := some "U1"
  symbol := some "AAPL"
  side := some "BUY"
  quantity := some (.fin 100)
  price := some (.fin 250)
  closePrice := some (.fin 245)
  tradeDate := none
  execTime := none
  execId := some "x1"

/-- Both as tables. -/
def sampleLinkDb : LinkDb where
  links := ⟨[sampleLink], List.pairwise_singleton ..⟩
  executionsFinal := [sampleStockFill]

theorem linked_sample : Linked sampleLinkDb "U1" 4000 :=
  ⟨sampleLink, List.mem_singleton.2 rfl, rfl, rfl, sampleStockFill, List.mem_singleton.2 rfl, rfl,
    rfl⟩

theorem linkAccount_sample : linkAccount (some "U1") = "U1" := by decide +kernel

theorem not_agrees_of_not_withinCap {ids : List ℤ} (hid : (4000 : ℤ) ∈ ids)
    (hcap : ¬ WithinCap [(some "U1", ids)] "U1" 4000) :
    ¬ BulkAgrees sampleLinkDb [(some "U1", ids)] := by
  intro h
  have hacc : linkAccount (some "U1") ≠ "" := by rw [linkAccount_sample]; decide
  have hwithin := (onlyAccount_of_agrees h (List.mem_singleton_self _) hacc hid
    (linkAccount_sample.symm ▸ linked_sample)).1
  rw [linkAccount_sample] at hwithin
  exact hcap hwithin

/-- The ids `0` to `4000`. -/
def longIds : List ℤ := (List.range 4001).map Int.ofNat

theorem not_withinCap_longIds : ¬ WithinCap [(some "U1", longIds)] "U1" 4000 := by
  have hids : idsOf [(some "U1", longIds)] "U1" = longIds := by
    rw [idsOf, List.filter_cons_of_pos (by simp [linkAccount_sample])]
    simp
  have hnodup : longIds.Nodup := List.nodup_range.map fun _ _ => Int.ofNat.inj
  rw [WithinCap, hids, firstSeen_of_nodup hnodup, longIds, ← List.map_take, List.take_range,
    List.mem_map]
  rintro ⟨n, hn, h⟩
  have hn : n < min maxBulkIds 4001 := List.mem_range.1 hn
  have h : (n : ℤ) = 4000 := h
  rw [maxBulkIds] at hn
  omega

/-- The last of too many ids loses its link, and so does an id that a second account asks for. -/
theorem not_bulkAgrees :
    ¬ BulkAgrees sampleLinkDb [(some "U1", longIds)] ∧
      ¬ BulkAgrees sampleLinkDb [(some "U1", [4000]), (some "U2", [4000])] := by
  constructor
  · refine not_agrees_of_not_withinCap ?_ not_withinCap_longIds
    exact List.mem_map.2 ⟨4000, List.mem_range.2 (by omega), rfl⟩
  · intro h
    have hacc : linkAccount (some "U1") ≠ "" := by rw [linkAccount_sample]; decide
    have honly := (onlyAccount_of_agrees h (List.mem_cons_self ..) hacc (List.mem_singleton.2 rfl)
      (linkAccount_sample.symm ▸ linked_sample)).2
    have hsecond := honly (some "U2", [4000]) (by simp) (List.mem_singleton.2 rfl)
    rw [linkAccount_sample] at hsecond
    exact absurd hsecond (by decide +kernel)

end Portfolio
