import BifrostTrade.Portfolio.PnlAttribution

/-!
# P&L attribution adds up

The parts of a position add up to its held P&L, the roll-ups of the items add up to the totals, and
the keys of two sessions are the items of the second.  A session without a snapshot of the one
before it has no item, and a query for one trade leaves out the keys of the others.
-/

namespace Portfolio.Snapshot

open Py Persistence

/-! ## What is claimed -/

/-- The held P&L of a fully read row is what its parts add up to. -/
def RowAttribution.Balanced (r : RowAttribution) : Prop :=
  ∀ u, r.parts .unexplained = some u → ∃ held d g v t,
    r.parts .heldPnl = some held ∧ r.parts .deltaPnl = some d ∧ r.parts .gammaPnl = some g ∧
      r.parts .vegaPnl = some v ∧ r.parts .thetaPnl = some t ∧ held = d + g + v + t + u

/-- Whether the account asked for has a stored row of the day. -/
def StoredOn (s : Snapshots) (q : AttributionQuery) (d : Date) : Prop :=
  ∃ r ∈ rowsOfAccount s q, r.snapshotDate = d

/-- Whether a key is one of the rows of the day. -/
def HasKey (s : Snapshots) (q : AttributionQuery) (d : Date) (k : PositionKey) : Prop :=
  ∃ r ∈ rowsOfAccount s q,
    r.snapshotDate = d ∧ (r.row.accountId, r.row.contractKey, r.row.tradeId) = k

instance (s : Snapshots) (q : AttributionQuery) (d : Date) (k : PositionKey) :
    Decidable (HasKey s q d k) :=
  inferInstanceAs (Decidable (∃ r ∈ rowsOfAccount s q, _ ∧ _))

/-- The items of a key in a session. -/
def itemsOf (result : PnlAttribution) (d : Date) (k : PositionKey) : List AttributionItem :=
  result.items.filter fun i => i.snapshotDate = d ∧ i.key = k

/-- The keys a query has items for: those of the trade asked for, in the sessions whose prior
session has a snapshot. -/
def Covered (s : Snapshots) (q : AttributionQuery) (x : SessionRow) (k : PositionKey) : Prop :=
  StoredOn s q x.priorDate ∧ q.ofTrade k = true

/-- The attribution adds up, with one item for each key that is covered. -/
structure AddsUp (s : Snapshots) (q : AttributionQuery) (result : PnlAttribution)
    (covered : SessionRow → PositionKey → Prop) : Prop where
  sessions : result.sessions.map SessionRow.snapshotDate = sessionDates s q
  oneItem : ∀ x ∈ result.sessions, ∀ k, HasKey s q x.snapshotDate k ∨ HasKey s q x.priorDate k →
    covered x k → (itemsOf result x.snapshotDate k).length = 1
  rows : ∀ i ∈ result.items, i.Balanced
  byTrade : result.totals = (result.byTrade.map Prod.snd).sum
  bySymbol : result.totals = (result.bySymbol.map Prod.snd).sum
  bySession : result.totals = (result.sessions.filterMap fun x => x.totals.map Prod.snd).sum
  totals : result.totals.Balanced
  groups : (∀ g ∈ result.byTrade, g.2.Balanced) ∧ (∀ g ∈ result.bySymbol, g.2.Balanced) ∧
    ∀ x ∈ result.sessions, ∀ t ∈ x.totals, t.2.Balanced

/-! ## Rows -/

theorem balanced_withUnexplained (parts : Part → Option ℚ) (quality : Option GreeksQuality)
    (status : AttributionStatus) :
    RowAttribution.Balanced ⟨withUnexplained parts, quality, status⟩ := by
  intro u hu
  simp only [withUnexplained] at hu
  split at hu
  case h_1 held d g v t hheld hd hg hv ht =>
    obtain rfl := Option.some.inj hu
    exact ⟨held, d, g, v, t, hheld, hd, hg, hv, ht, by ring⟩
  case h_2 => cases hu

theorem balanced_attributeRow (prior current : Option PositionRow) (days : ℤ) :
    (attributeRow prior current days).Balanced := by
  unfold attributeRow
  split
  case h_1 => exact fun u hu => by cases hu
  case h_2 => exact fun u hu => by cases hu
  case h_3 p c =>
    dsimp only
    split
    · exact balanced_withUnexplained _ _ _
    · exact fun u hu => by simp at hu
    · exact fun u hu => by cases hu

@[simp] theorem attributionItem_key (d p : Date) (k : PositionKey) (a b : Option PositionRow) :
    (attributionItem d p k a b).key = k := rfl

@[simp] theorem attributionItem_snapshotDate (d p : Date) (k : PositionKey)
    (a b : Option PositionRow) : (attributionItem d p k a b).snapshotDate = d := rfl

theorem balanced_of_mem_sessionItems {q : AttributionQuery} {rows : List PositionRow} {d p : Date}
    {i : AttributionItem} (h : i ∈ sessionItems q rows d p) : i.Balanced := by
  obtain ⟨k, -, rfl⟩ := List.mem_map.1 h
  exact balanced_attributeRow _ _ _

/-! ## Sums -/

theorem bump_eq {κ : Type} [DecidableEq κ] (counts : κ → ℕ) (k : κ) :
    bump counts k = counts + bump 0 k := by
  funext k'
  by_cases h : k' = k
  · subst h
    simp [bump]
  · simp [bump, h]

theorem Sums.zero_def : (0 : Sums) = ⟨0, 0, 0, 0, 0, 0, 0, 0, 0⟩ := rfl

theorem Sums.add_def (a b : Sums) :
    a + b = ⟨a.parts + b.parts, a.rows + b.rows, a.readRows + b.readRows,
      a.unreadRows + b.unreadRows, a.unreadHeldPnl + b.unreadHeldPnl,
      a.markAnomalyRows + b.markAnomalyRows, a.markAnomalyUnexplained + b.markAnomalyUnexplained,
      a.greeksQuality + b.greeksQuality, a.status + b.status⟩ := rfl

/-- What a row adds does not depend on what it is added to. -/
theorem addRow_eq (s : Sums) (r : AttributionItem) : addRow s r = s + addRow 0 r := by
  have hstatus := bump_eq s.status r.status
  have hquality : r.greeksQuality.elim s.greeksQuality (bump s.greeksQuality) =
      s.greeksQuality + r.greeksQuality.elim 0 (bump 0) := by
    cases r.greeksQuality with
    | none => rfl
    | some quality => exact bump_eq _ _
  unfold addRow
  cases r.parts .unexplained with
  | none =>
    simp only [Sums.zero_def, Sums.add_def, hstatus, hquality, zero_add, add_zero]
  | some u =>
    have hparts : (fun k => s.parts k + (r.parts k).getD 0) =
      s.parts + fun k => (r.parts k).getD 0 := rfl
    dsimp only
    split_ifs <;> simp [Sums.zero_def, Sums.add_def, hstatus, hquality, hparts]

theorem sumsOf_eq (items : List AttributionItem) : sumsOf items = (items.map (addRow 0)).sum := by
  have h : ∀ s, items.foldl addRow s = s + (items.map (addRow 0)).sum := by
    induction items with
    | nil => exact fun s => (add_zero s).symm
    | cons i items ih =>
      intro s
      rw [List.foldl_cons, ih, addRow_eq, List.map_cons, List.sum_cons, add_assoc]
  exact (h _).trans (zero_add _)

theorem rollupItems_eq {κ : Type} [DecidableEq κ] (keyOf : AttributionItem → κ)
    (items : List AttributionItem) :
    rollupItems keyOf items = rollup keyOf (addRow 0) items := by
  simp only [rollupItems, rollup, sumsOf_eq]

theorem sum_rollupItems {κ : Type} [DecidableEq κ] (keyOf : AttributionItem → κ)
    (items : List AttributionItem) :
    ((rollupItems keyOf items).map Prod.snd).sum = sumsOf items := by
  rw [rollupItems_eq, sum_rollup, sumsOf_eq]

theorem sumsOf_flatMap {α : Type} (l : List α) (F : α → List AttributionItem) :
    sumsOf (l.flatMap F) = (l.map fun a => sumsOf (F a)).sum := by
  induction l with
  | nil => rfl
  | cons a l ih =>
    rw [List.flatMap_cons, sumsOf_eq, List.map_append, List.sum_append, ← sumsOf_eq, ← sumsOf_eq,
      ih, List.map_cons, List.sum_cons]

namespace Sums

theorem balanced_add {a b : Sums} (ha : a.Balanced) (hb : b.Balanced) : (a + b).Balanced := by
  unfold Balanced at *
  simp only [add_parts, Pi.add_apply, ha, hb]
  ring

theorem balanced_addRow {i : AttributionItem} (h : i.Balanced) : (addRow 0 i).Balanced := by
  cases hu : i.parts .unexplained with
  | none => simp [addRow, hu, Balanced]
  | some u =>
    obtain ⟨held, d, g, v, t, hheld, hd, hg, hv, ht, hsum⟩ := h u hu
    unfold addRow
    simp only [hu]
    split_ifs <;> simp [Balanced, hu, hheld, hd, hg, hv, ht, hsum]

/-- Rows that are balanced have sums that are. -/
theorem balanced_sumsOf {items : List AttributionItem} (h : ∀ i ∈ items, i.Balanced) :
    (sumsOf items).Balanced := by
  rw [sumsOf_eq]
  induction items with
  | nil => simp [Balanced]
  | cons i items ih =>
    rw [List.map_cons, List.sum_cons]
    exact balanced_add (balanced_addRow (h i (List.mem_cons_self ..)))
      (ih fun j hj => h j (List.mem_cons_of_mem _ hj))

end Sums

theorem balanced_rollupItems {κ : Type} [DecidableEq κ] {keyOf : AttributionItem → κ}
    {items : List AttributionItem} (h : ∀ i ∈ items, i.Balanced) {g : κ × Sums}
    (hg : g ∈ rollupItems keyOf items) : g.2.Balanced := by
  obtain ⟨group, hgroup, rfl⟩ := List.mem_map.1 hg
  refine Sums.balanced_sumsOf fun i hi => h i ?_
  rw [(mem_groupBy.1 hgroup).2] at hi
  exact List.mem_of_mem_filter hi

/-! ## Keys -/

theorem mem_byKey {rows : List PositionRow} {d : Date} {k : PositionKey} :
    k ∈ (byKey rows d).map Prod.fst ↔ ∃ r ∈ rows, r.stored.snapshotDate = d ∧ r.key = k := by
  rw [byKey, mem_dict_key]
  simp [and_assoc]

/-- A key of either session that is of the trade asked for has one item. -/
theorem length_sessionItems {q : AttributionQuery} {rows : List PositionRow} {d p : Date}
    {k : PositionKey} (htrade : q.ofTrade k = true)
    (hk : k ∈ (byKey rows p).map Prod.fst ∨ k ∈ (byKey rows d).map Prod.fst) :
    ((sessionItems q rows d p).filter fun i => i.snapshotDate = d ∧ i.key = k).length = 1 := by
  have hkeys : (sortedBy keyOrder (firstSeen ((byKey rows p).map Prod.fst ++
      (byKey rows d).map Prod.fst))).Perm _ := sortedBy_perm _ _
  have hmem : k ∈ (sortedBy keyOrder (firstSeen ((byKey rows p).map Prod.fst ++
      (byKey rows d).map Prod.fst))).filter q.ofTrade := by
    rw [List.mem_filter, hkeys.mem_iff, mem_firstSeen, List.mem_append]
    exact ⟨hk, htrade⟩
  have hnodup := (hkeys.nodup_iff.2 (firstSeen_nodup _)).filter q.ofTrade
  have hone := List.count_eq_one_of_mem hnodup hmem
  rw [List.count_eq_length_filter] at hone
  rw [sessionItems, List.filter_map, List.length_map, ← hone]
  refine congrArg List.length (List.filter_congr fun a _ => Bool.eq_iff_iff.2 ?_)
  show decide (d = d ∧ a = k) = true ↔ (a == k) = true
  rw [decide_eq_true_iff, beq_iff_eq]
  exact and_iff_right rfl

/-- Where the days differ, a day has only the elements of its own entry. -/
theorem filter_flatMap_day {α : Type} {l : List (Date × Date)} (hnodup : (l.map Prod.fst).Nodup)
    {F : Date × Date → List α} {day : α → Date} (hF : ∀ x ∈ l, ∀ a ∈ F x, day a = x.1)
    {x : Date × Date} (hx : x ∈ l) (P : α → Prop) [DecidablePred P] :
    ((l.flatMap F).filter fun a => day a = x.1 ∧ P a) =
      (F x).filter fun a => day a = x.1 ∧ P a := by
  have hother : ∀ y ∈ l, y ≠ x → ((F y).filter fun a => day a = x.1 ∧ P a) = [] := by
    intro y hy hne
    refine List.filter_eq_nil_iff.2 fun a ha h => hne ?_
    have h : day a = x.1 := (of_decide_eq_true h).1
    exact List.inj_on_of_nodup_map hnodup hy hx ((hF y hy a ha).symm.trans h)
  obtain ⟨pre, post, rfl⟩ := List.append_of_mem hx
  have hout : ∀ y ∈ pre ++ post, y ≠ x := by
    rintro y hy rfl
    have hnodup := List.nodup_middle.1 (List.Nodup.of_map _ hnodup)
    exact (List.nodup_cons.1 hnodup).1 hy
  have hnone : ∀ ys ⊆ pre ++ post,
      ((ys.flatMap F).filter fun a => day a = x.1 ∧ P a) = [] := by
    intro ys hys
    rw [List.filter_flatMap, List.flatMap_eq_nil_iff]
    intro y hy
    have hy := hys hy
    exact hother y (by simp at hy ⊢; tauto) (hout y hy)
  rw [List.flatMap_append, List.flatMap_cons, List.filter_append, List.filter_append,
    hnone pre (List.subset_append_left ..), hnone post (List.subset_append_right ..),
    List.nil_append, List.append_nil]

/-! ## Sessions -/

theorem nodup_sessionDates (s : Snapshots) (q : AttributionQuery) : (sessionDates s q).Nodup := by
  have h : (snapshotDates s q q.fromDate q.toDate).Nodup :=
    (sortedBy_perm _ _).nodup_iff.2 (firstSeen_nodup _)
  unfold sessionDates
  dsimp only
  split_ifs
  · cases (snapshotDates s q q.fromDate q.toDate).getLast? with
    | none => exact List.nodup_nil
    | some d => exact List.nodup_singleton d
  · exact h

theorem mem_snapshotDates {s : Snapshots} {q : AttributionQuery} {d : Date} :
    d ∈ snapshotDates s q none none ↔ StoredOn s q d := by
  rw [snapshotDates, (sortedBy_perm _ _).mem_iff, mem_firstSeen]
  simp [StoredOn]

theorem map_fst_priorSessions {cal : MarketCalendar} {dates : List Date}
    {priors : List (Date × Date)} (h : priorSessions cal dates = some priors) :
    priors.map Prod.fst = dates := by
  have hmap : ∀ (f : Date → Option Date) {l : List Date} {ps : List (Date × Date)},
      (l.mapM fun d => (f d).map fun p => (d, p)) = some ps → ps.map Prod.fst = l := by
    intro f l
    induction l with
    | nil =>
      intro ps hps
      obtain rfl := Option.some.inj hps
      rfl
    | cons d l ih =>
      intro ps hps
      rw [List.mapM_cons] at hps
      obtain ⟨dp, hdp, hps⟩ := Option.bind_eq_some_iff.1 hps
      obtain ⟨rest, hrest, hps⟩ := Option.bind_eq_some_iff.1 hps
      obtain rfl := Option.some.inj hps
      obtain ⟨p, -, rfl⟩ := Option.map_eq_some_iff.1 hdp
      rw [List.map_cons, ih hrest]
  unfold priorSessions at h
  split at h
  · obtain ⟨lo, -, h⟩ := Option.bind_eq_some_iff.1 h
    exact hmap _ h
  case h_2 hnone =>
    obtain rfl := Option.some.inj h
    cases dates with
    | nil => rfl
    | cons d dates => exact absurd (List.getLast?_cons ..) (hnone d _ rfl)

/-- What an attribution that is returned is made of. -/
theorem of_pnlAttribution {newYorkDate : Instant → Date} {cal : MarketCalendar} {s : Snapshots}
    {q : AttributionQuery} {result : PnlAttribution}
    (h : pnlAttribution newYorkDate cal s q = .ok result) :
    ∃ (priors : List (Date × Date)) (rows : List PositionRow),
      priors.map Prod.fst = sessionDates s q ∧
      (∀ x ∈ priors, x.2 ∈ snapshotDates s q none none → ∀ d, d = x.1 ∨ d = x.2 → ∀ k,
        HasKey s q d k → k ∈ (byKey rows d).map Prod.fst) ∧
      result = rolledUp
        ((priors.filter fun x => x.2 ∈ snapshotDates s q none none).flatMap fun x =>
          sessionItems q rows x.1 x.2)
        (priors.map fun x =>
          { snapshotDate := x.1
            priorDate := x.2
            totals :=
              if x.2 ∈ snapshotDates s q none none then
                some (daysBetween x.1 x.2, sumsOf (sessionItems q rows x.1 x.2))
              else none }) := by
  unfold pnlAttribution at h
  cases hrange : dateRange q.fromDate q.toDate with
  | error e =>
    rw [hrange] at h
    cases h
  | ok _ =>
    rw [hrange] at h
    cases hpriors : priorSessions cal (sessionDates s q) with
    | none =>
      rw [hpriors] at h
      cases h
    | some priors =>
      rw [hpriors] at h
      obtain rfl := Except.ok.inj h
      refine ⟨priors, _, map_fst_priorSessions hpriors, ?_, rfl⟩
      intro x hx hstored d hd k hk
      obtain ⟨r, hr, hrd, hrk⟩ := hk
      refine mem_byKey.2 ⟨positionRow newYorkDate r, ?_, hrd, hrk⟩
      refine List.mem_map_of_mem (List.mem_filter.2 ⟨hr, decide_eq_true ?_⟩)
      rw [hrd, List.mem_append]
      rcases hd with rfl | rfl
      · left
        rw [← map_fst_priorSessions hpriors]
        exact List.mem_map_of_mem hx
      · right
        exact List.mem_filter.2 ⟨List.mem_map_of_mem hx, decide_eq_true hstored⟩

/-- The sums of the sessions that are read. -/
theorem filterMap_totals {l : List (Date × Date)} (stored : Date → Prop) [DecidablePred stored]
    (days : Date × Date → ℤ) (sums : Date × Date → Sums) :
    (l.map fun x => SessionRow.mk x.1 x.2
      (if stored x.2 then some (days x, sums x) else none)).filterMap
        (fun x => x.totals.map Prod.snd) = (l.filter fun x => stored x.2).map sums := by
  induction l with
  | nil => rfl
  | cons x l ih =>
    rw [List.map_cons]
    by_cases hx : stored x.2
    · rw [List.filterMap_cons_some (by simp [hx]; rfl), ih,
        List.filter_cons_of_pos (by simpa using hx), List.map_cons]
    · rw [List.filterMap_cons_none (by simp [hx]), ih,
        List.filter_cons_of_neg (by simpa using hx)]

/-- The attribution of any snapshots adds up, with one item for each key that is covered. -/
theorem addsUp_pnlAttribution {newYorkDate : Instant → Date} {cal : MarketCalendar} {s : Snapshots}
    {q : AttributionQuery} {result : PnlAttribution}
    (h : pnlAttribution newYorkDate cal s q = .ok result) :
    AddsUp s q result (Covered s q) := by
  obtain ⟨priors, rows, hdates, hkeys, rfl⟩ := of_pnlAttribution h
  have hbalanced : ∀ x : Date × Date, ∀ i ∈ sessionItems q rows x.1 x.2, i.Balanced :=
    fun x i => balanced_of_mem_sessionItems
  have hitems : ∀ i ∈ (priors.filter fun x => x.2 ∈ snapshotDates s q none none).flatMap fun x =>
      sessionItems q rows x.1 x.2, i.Balanced := by
    intro i hi
    obtain ⟨x, -, hi⟩ := List.mem_flatMap.1 hi
    exact hbalanced x i hi
  constructor
  case sessions => simpa [rolledUp, Function.comp_def] using hdates
  case oneItem =>
    rintro x hx k hk ⟨hstored, htrade⟩
    obtain ⟨dp, hdp, rfl⟩ := List.mem_map.1 hx
    have hstored := mem_snapshotDates.2 hstored
    have hread : dp ∈ priors.filter fun x => x.2 ∈ snapshotDates s q none none :=
      List.mem_filter.2 ⟨hdp, decide_eq_true hstored⟩
    have hnodup : ((priors.filter fun x => x.2 ∈ snapshotDates s q none none).map
        Prod.fst).Nodup := by
      have hall : (priors.map Prod.fst).Nodup := hdates ▸ nodup_sessionDates s q
      exact hall.sublist (List.filter_sublist.map _)
    have hday : ∀ x ∈ priors.filter fun x => x.2 ∈ snapshotDates s q none none,
        ∀ i ∈ sessionItems q rows x.1 x.2, i.snapshotDate = x.1 := by
      intro x _ i hi
      obtain ⟨k, -, rfl⟩ := List.mem_map.1 hi
      rfl
    have hone := length_sessionItems htrade
      (hk.symm.imp (hkeys dp hdp hstored _ (.inr rfl) k) (hkeys dp hdp hstored _ (.inl rfl) k))
    rw [← filter_flatMap_day hnodup hday hread] at hone
    exact hone
  case rows => exact hitems
  case byTrade =>
    exact ((((sortedBy_perm _ _).map Prod.snd).sum_eq).trans (sum_rollupItems _ _)).symm
  case bySymbol =>
    exact ((((sortedBy_perm _ _).map Prod.snd).sum_eq).trans (sum_rollupItems _ _)).symm
  case bySession =>
    exact (sumsOf_flatMap _ _).trans (congrArg List.sum (filterMap_totals
      (fun d => d ∈ snapshotDates s q none none) (fun x => daysBetween x.1 x.2)
      fun x => sumsOf (sessionItems q rows x.1 x.2)).symm)
  case totals => exact Sums.balanced_sumsOf hitems
  case groups =>
    refine ⟨fun g hg => ?_, fun g hg => ?_, fun x hx t ht => ?_⟩
    · exact balanced_rollupItems hitems ((sortedBy_perm _ _).mem_iff.1 hg)
    · exact balanced_rollupItems hitems ((sortedBy_perm _ _).mem_iff.1 hg)
    · obtain ⟨dp, -, rfl⟩ := List.mem_map.1 hx
      dsimp only at ht
      have hsums := Sums.balanced_sumsOf (hbalanced dp)
      split_ifs at ht
      · rw [← Option.some.inj ht]
        dsimp only
        exact hsums
      · cases ht

/-! ## Two nights -/

/-- A day of July 2026, which begins on a Wednesday. -/
def july (day : ℕ) : Date := (Date.ofYmd 2026 7 day).getD .epoch

/-- A calendar without holidays. -/
def noHolidays : MarketCalendar where
  newYork1600 _ := 0
  holidays := some []

/-- Ten shares of a trade at the close of a day. -/
def sharesRow (day : ℕ) (tradeId : ℤ) (mark : ℚ) : PositionSnapshotRow where
  snapshotDate := july day
  row :=
    { accountId := "U1"
      contractKey := "AAPL|STK|||"
      symbol := some "AAPL"
      secType := some "STK"
      expiry := none
      strike := none
      optionRight := none
      positionQty := 10
      avgCost := none
      tradeId := some tradeId
      tradeQty := 10
      mark := some mark
      markSource := some markVendorEod }
  positionsUpdatedAt := none
  vendor := .empty

/-- Snapshots with the rows. -/
def snapshotsOf (rows : List PositionSnapshotRow) : Snapshots :=
  ⟨.empty, (Sql.Table.empty.insertAllOrIgnore rows).1⟩

/-- The shares of two trades on a Wednesday and on the Thursday after it. -/
def twoNights : Snapshots :=
  snapshotsOf [sharesRow 1 1 370, sharesRow 1 2 370, sharesRow 2 1 372, sharesRow 2 2 372]

/-- The latest session, of all trades or of one. -/
def latest (tradeId : Option ℤ) : AttributionQuery := ⟨none, none, none, tradeId⟩

theorem eq_ok_of_mem_toOption {ε α : Type} {x : Except ε α} {a : α} (h : a ∈ x.toOption) :
    x = .ok a := by
  cases x with
  | error e => cases h
  | ok b => rw [Option.some.inj h]

theorem addsUp_twoNights :
    ∃ result, pnlAttribution (fun _ => july 2) noHolidays twoNights (latest none) = .ok result ∧
      result.items.length = 2 ∧ AddsUp twoNights (latest none) result
        (Covered twoNights (latest none)) := by
  have hrun : ∃ result ∈ (pnlAttribution (fun _ => july 2) noHolidays twoNights
      (latest none)).toOption, result.items.length = 2 := by decide +kernel
  obtain ⟨result, hresult, hlength⟩ := hrun
  have hok := eq_ok_of_mem_toOption hresult
  exact ⟨result, hok, hlength, addsUp_pnlAttribution hok⟩

/-- The keys of a first night have no item, and neither have those of other trades where one is
asked for. -/
theorem not_addsUp_uncovered :
    (∃ result, pnlAttribution (fun _ => july 1) noHolidays (snapshotsOf [sharesRow 1 1 370])
        (latest none) = .ok result ∧
      ¬ AddsUp (snapshotsOf [sharesRow 1 1 370]) (latest none) result fun _ _ => True) ∧
    ∃ result, pnlAttribution (fun _ => july 2) noHolidays twoNights (latest (some 1)) =
        .ok result ∧
      ¬ AddsUp twoNights (latest (some 1)) result fun _ _ => True := by
  have hfirst : ∃ result ∈ (pnlAttribution (fun _ => july 1) noHolidays
      (snapshotsOf [sharesRow 1 1 370]) (latest none)).toOption, ∃ x ∈ result.sessions,
        HasKey (snapshotsOf [sharesRow 1 1 370]) (latest none) x.snapshotDate
          ("U1", "AAPL|STK|||", some 1) ∧
        (itemsOf result x.snapshotDate ("U1", "AAPL|STK|||", some 1)).length ≠ 1 := by
    decide +kernel
  have hother : ∃ result ∈ (pnlAttribution (fun _ => july 2) noHolidays twoNights
      (latest (some 1))).toOption, ∃ x ∈ result.sessions,
        HasKey twoNights (latest (some 1)) x.snapshotDate ("U1", "AAPL|STK|||", some 2) ∧
        (itemsOf result x.snapshotDate ("U1", "AAPL|STK|||", some 2)).length ≠ 1 := by
    decide +kernel
  constructor
  · obtain ⟨result, hresult, x, hx, hkey, hlength⟩ := hfirst
    refine ⟨result, eq_ok_of_mem_toOption hresult, fun h => hlength ?_⟩
    exact h.oneItem x hx _ (.inl hkey) trivial
  · obtain ⟨result, hresult, x, hx, hkey, hlength⟩ := hother
    refine ⟨result, eq_ok_of_mem_toOption hresult, fun h => hlength ?_⟩
    exact h.oneItem x hx _ (.inl hkey) trivial

end Portfolio.Snapshot
