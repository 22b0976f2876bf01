import BifrostTrade.Strategy.MembershipLists
import BifrostTrade.Strategy.RuleRuns

/-!
# What holds along every run

The rows stay sound, the daemon runs what its settings were set to, an allocation's list is the one
that was written last without the opportunities that were deleted since, and a review carries the
time of the first confirm since it was last reopened.
-/

namespace Strategy

open Py Sql Runs
open Portfolio.Plan (Instant)

variable {detail : Detail} {collate : String → String → Bool}

/-! ## Sound rows -/

section Sound

variable {db after : RuleDb} {e : RuleEvent}

/-- A deletion brings no row in. -/
theorem Without.mem {ρ : Type} {key : ρ → ℤ} {goes : Prop} [Decidable goes] {id : ℤ}
    {before after : Table key} (h : Without goes id before after) {r : ρ} (hr : r ∈ after.rows) :
    r ∈ before.rows := by
  have hget : after.get (key r) = some r := Table.get_eq_some_iff.2 ⟨hr, rfl⟩
  rw [h (key r)] at hget
  split at hget
  · cases hget
  · exact (Table.get_eq_some_iff.1 hget).1

theorem OrdersApart.subset {xs ys : List Membership} (h : OrdersApart xs)
    (hsub : ∀ x ∈ ys, x ∈ xs) :
    OrdersApart ys :=
  fun x hx y hy => h x (hsub x hx) y (hsub y hy)

/-- A list that is written stands for itself, the others stay. -/
theorem OrdersApart.listed {t : Table Membership.key} (h : OrdersApart t.rows) (a : ℤ)
    (ids : Option (List ℤ)) : OrdersApart (listed t a ids).rows := by
  cases ids with
  | none => exact h
  | some ids =>
    intro x hx y hy hsame horder
    by_cases ha : x.allocationId = a
    · exact ordersApart_written (mem_membersOf.2 ⟨hx, ha⟩) (mem_membersOf.2 ⟨hy, hsame ▸ ha⟩) horder
    · have hold : ∀ z ∈ (replaceMemberships t a ids).rows, z.allocationId = x.allocationId →
          z ∈ t.rows := by
        intro z hz hza
        have hmem := mem_membersOf.2 ⟨hz, hza⟩
        rw [membersOf_replace_of_ne ha] at hmem
        exact (mem_membersOf.1 hmem).1
      exact h x (hold x hx rfl) y (hold y hy hsame.symm) hsame horder

theorem Effect.sound (h : Effect db after e) (hold : db.tables.Sound) : after.tables.Sound := by
  cases h with
  | opportunities h =>
    obtain ⟨x, hx⟩ := h.frame
    refine ⟨h.sound hold.opportunities, ?_, ?_, ?_, ?_⟩ <;> rw [hx]
    exacts [hold.allocations, hold.memberships, hold.trades, hold.reviews]
  | allocations a ids h =>
    obtain ⟨x, hx⟩ := h.frame
    refine ⟨?_, h.sound hold.allocations, ?_, ?_, ?_⟩ <;> rw [hx]
    exacts [hold.opportunities, hold.memberships.listed a ids, hold.trades, hold.reviews]
  | trades h =>
    obtain ⟨x, hx⟩ := h.frame
    refine ⟨?_, ?_, ?_, h.sound hold.trades, ?_⟩ <;> rw [hx]
    exacts [hold.opportunities, hold.allocations, hold.memberships, hold.reviews]
  | review now newId id c h =>
    refine ⟨?_, ?_, ?_, ?_, h.sound hold.reviews⟩ <;> rw [h.frame]
    exacts [hold.opportunities, hold.allocations, hold.memberships, hold.trades]
  | active h =>
    obtain ⟨x, y, hx⟩ := h
    refine ⟨?_, ?_, ?_, ?_, ?_⟩ <;> rw [hx]
    exacts [hold.opportunities, hold.allocations, hold.memberships, hold.trades, hold.reviews]
  | removed k id h hfree =>
    have hgone := Strategy.removed hfree
    rw [← h] at hgone
    exact
      { opportunities := fun o ho => hold.opportunities o (hgone.opportunities.mem ho)
        allocations := fun a ha => hold.allocations a (hgone.allocations.mem ha)
        memberships := hold.memberships.subset fun x hx => ((hgone.memberships x).1 hx).1
        trades := fun x hx => hold.trades x (hgone.trades.mem hx)
        reviews := hgone.reviews ▸ hold.reviews }
  | others h =>
    obtain ⟨x, hx⟩ := h
    refine ⟨?_, ?_, ?_, ?_, ?_⟩ <;> rw [hx]
    exacts [hold.opportunities, hold.allocations, hold.memberships, hold.trades, hold.reviews]
  | same h => exact h ▸ hold

theorem sound_step (e : RuleEvent) (h : db.tables.Sound) :
    (step detail collate db e).tables.Sound := by
  rcases step_cases detail collate db e with ⟨-, hsame⟩ | ⟨after, -, hstep, heffect⟩
  · rw [hsame]
    exact h
  · rw [hstep]
    exact heffect.sound h

end Sound

/-- **The rows stay sound**, in whatever order the writers come and whatever they are sent. -/
theorem sound_run (db : RuleDb) (h : db.tables.Sound) (evs : List RuleEvent) :
    (run (step detail collate) db evs).tables.Sound := by
  induction evs using List.reverseRecOn with
  | nil => exact h
  | append_singleton evs e ih =>
    rw [run_snoc]
    exact sound_step e ih

/-- Two rules of one structure, and the allocation that the daemon runs. -/
def twoRules : RuleTables :=
  { RuleTables.empty with
    structures := ⟨[⟨1, "wheel", none, true⟩], List.nodup_singleton _⟩
    opportunities := ⟨[⟨1, "puts", 1, none, none, true, [], []⟩,
      ⟨2, "calls", 1, none, none, true, [], []⟩], by decide⟩
    allocations := ⟨[⟨5, "core", none, none, none, true⟩], List.nodup_singleton _⟩
    settings := ⟨none, none, some 5⟩ }

/-- The two rules as a database. -/
def twoRulesDb : RuleDb := ⟨twoRules, fun c => by cases c <;> decide⟩

/-- The list of the allocation, one rule sent twice. -/
def listTwice : RuleEvent := .updateAllocation 5 ⟨none, some (some [2, 1, 2]), none, none, none⟩

theorem sound_twoRules : twoRules.Sound where
  opportunities o ho := by
    simp only [twoRules, List.mem_cons, List.not_mem_nil, or_false] at ho
    rcases ho with rfl | rfl <;>
      exact ⟨by decide, by simp, by simp, ⟨by simp, by simp, List.Pairwise.nil⟩⟩
  allocations a ha := by
    obtain rfl := List.mem_singleton.1 ha
    exact ⟨by decide, by simp, by simp⟩
  memberships x hx := absurd hx List.not_mem_nil
  trades x hx := absurd hx List.not_mem_nil
  reviews r hr := absurd hr List.not_mem_nil

theorem sound_run_listTwice :
    (run (step (fun _ => "") fun a b => a ≤ b) twoRulesDb
      [listTwice, .deleteStrict .opportunity 1]).tables.Sound :=
  sound_run twoRulesDb sound_twoRules _

/-! ## What the daemon runs -/

theorem Effect.settings {db after : RuleDb} {e : RuleEvent} (h : Effect db after e)
    (hsets : e.setsActive = false) : after.tables.settings = db.tables.settings := by
  cases h with
  | opportunities h =>
    obtain ⟨x, hx⟩ := h.frame
    rw [hx]
  | allocations a ids h =>
    obtain ⟨x, hx⟩ := h.frame
    rw [hx]
  | trades h =>
    obtain ⟨x, hx⟩ := h.frame
    rw [hx]
  | review now newId id c h =>
    rw [h.frame]
    rfl
  | active _ h => exact absurd h (by rw [hsets]; exact Bool.false_ne_true)
  | removed k id h hfree =>
    rw [h]
    exact (Strategy.removed hfree).settings
  | others h =>
    obtain ⟨x, hx⟩ := h
    rw [hx]
  | same h => rw [h]

/-- What the settings point at is there. -/
theorem hasActive_of_settings (db : RuleDb) {c : ActiveColumn} {id : ℤ}
    (h : db.tables.settings.get c = some id) : db.tables.hasActive c id = true := by
  have hmem : db.tables.settings ∈ db.tables.settingsRows := List.mem_singleton_self _
  cases c
  · exact Table.hasKey_iff_mem_keys.2 (db.holds .activeStructure _ hmem id h)
  · exact Table.hasKey_iff_mem_keys.2 (db.holds .activeGate _ hmem id h)
  · exact Table.hasKey_iff_mem_keys.2 (db.holds .activeAllocation _ hmem id h)

/-- **The daemon keeps what it runs**: as long as nobody sets it or deactivates a structure, no
write of a rule and no deletion changes what the settings point at, and it stays there. -/
theorem active_kept (db : RuleDb) (evs : List RuleEvent)
    (h : ∀ e ∈ evs, e.setsActive = false) :
    (run (step detail collate) db evs).tables.settings = db.tables.settings ∧
      ∀ c id, db.tables.settings.get c = some id →
        (run (step detail collate) db evs).tables.hasActive c id = true := by
  have hsame : (run (step detail collate) db evs).tables.settings = db.tables.settings := by
    induction evs using List.reverseRecOn with
    | nil => rfl
    | append_singleton evs e ih =>
      rw [run_snoc, ← ih fun e' he' => h e' (List.mem_append_left _ he')]
      rcases step_cases detail collate (run (step detail collate) db evs) e with
        ⟨-, hstep⟩ | ⟨after, -, hstep, heffect⟩
      · rw [hstep]
      · rw [hstep]
        exact heffect.settings (h e (List.mem_append_right _ (List.mem_singleton_self e)))
  exact ⟨hsame, fun c id hc => hasActive_of_settings _ (hsame ▸ hc)⟩

theorem active_kept_deleted :
    (run (step (fun _ => "") fun a b => a ≤ b) twoRulesDb
        [listTwice, .deleteStrict .opportunity 1, .deleteStrict .allocation 5]).tables.settings =
        ⟨none, none, some 5⟩ ∧
      ∀ c id, twoRules.settings.get c = some id →
        (run (step (fun _ => "") fun a b => a ≤ b) twoRulesDb
            [listTwice, .deleteStrict .opportunity 1, .deleteStrict .allocation 5]).tables.hasActive
          c id = true :=
  active_kept twoRulesDb _ (by simp [listTwice, RuleEvent.setsActive])

/-! ## The list of an allocation -/

/-- The allocation and the opportunity exist. -/
def Present (db : RuleDb) (a o : ℤ) : Prop :=
  db.tables.allocations.hasKey a = true ∧ db.tables.opportunities.hasKey o = true

instance (db : RuleDb) (a o : ℤ) : Decidable (Present db a o) :=
  inferInstanceAs (Decidable (_ ∧ _))

theorem present_of_mem (db : RuleDb) {a : ℤ} {x : Membership}
    (hx : x ∈ membersOf db.tables.memberships a) : Present db a x.opportunityId := by
  obtain ⟨hmem, rfl⟩ := mem_membersOf.1 hx
  exact ⟨Table.hasKey_iff_mem_keys.2 (db.holds .membershipAllocation x hmem _ rfl),
    Table.hasKey_iff_mem_keys.2 (db.holds .membershipOpportunity x hmem _ rfl)⟩

theorem filter_comm {α : Type} (p q : α → Bool) (l : List α) :
    (l.filter p).filter q = (l.filter q).filter p := by
  rw [List.filter_filter, List.filter_filter]
  exact List.filter_congr fun x _ => Bool.and_comm ..

/-- Rows that went took what they name with them. -/
theorem membersOf_eq_filter {db after : RuleDb} {a : ℤ} {p : Membership → Bool}
    (hrows : membersOf after.tables.memberships a = (membersOf db.tables.memberships a).filter p)
    (hgone : ∀ x ∈ membersOf db.tables.memberships a, p x = false →
      ¬ Present after a x.opportunityId) :
    membersOf after.tables.memberships a =
      (membersOf db.tables.memberships a).filter fun x => Present after a x.opportunityId := by
  rw [hrows]
  refine List.filter_congr fun x hx => ?_
  cases hp : p x with
  | false => exact (decide_eq_false (hgone x hx hp)).symm
  | true =>
    have hstays : x ∈ membersOf after.tables.memberships a :=
      hrows ▸ List.mem_filter.2 ⟨hx, hp⟩
    exact (decide_eq_true (present_of_mem after hstays)).symm

theorem membersOf_eq_filter_of_same {db after : RuleDb} {a : ℤ}
    (hrows : membersOf after.tables.memberships a = membersOf db.tables.memberships a) :
    membersOf after.tables.memberships a =
      (membersOf db.tables.memberships a).filter fun x => Present after a x.opportunityId :=
  membersOf_eq_filter (p := fun _ => true) (by rw [hrows, List.filter_true]) nofun

/-- An event that does not write the list leaves of it what still exists. -/
theorem Effect.membersOf {db after : RuleDb} {e : RuleEvent} {a : ℤ} (h : Effect db after e)
    (hlist : ∀ l ∈ e.list, l.1 ≠ a) :
    Strategy.membersOf after.tables.memberships a =
      (Strategy.membersOf db.tables.memberships a).filter fun x =>
        Present after a x.opportunityId := by
  cases h with
  | opportunities h =>
    obtain ⟨x, hx⟩ := h.frame
    exact membersOf_eq_filter_of_same (by rw [hx])
  | allocations b ids h hids =>
    obtain ⟨x, hx⟩ := h.frame
    refine membersOf_eq_filter_of_same ?_
    rw [hx]
    cases ids with
    | none => rfl
    | some ids =>
      have hne : b ≠ a := hlist (b, ids) hids
      exact membersOf_replace_of_ne hne.symm ids
  | trades h =>
    obtain ⟨x, hx⟩ := h.frame
    exact membersOf_eq_filter_of_same (by rw [hx])
  | review now newId id c h => exact membersOf_eq_filter_of_same (by rw [h.frame]; rfl)
  | active h =>
    obtain ⟨x, y, hx⟩ := h
    exact membersOf_eq_filter_of_same (by rw [hx])
  | removed k id h hfree =>
    have hout : ∀ {ρ : Type} {key : ρ → ℤ} (t : Table key), (t.remove id).hasKey id ≠ true :=
      fun t hkey => (Table.mem_keys_remove.1 (Table.hasKey_iff_mem_keys.1 hkey)).2 rfl
    cases k with
    | opportunity =>
      refine membersOf_eq_filter (p := fun x => !decide (x.opportunityId = id)) ?_ ?_
      · rw [h]
        exact filter_comm ..
      · intro x _ hx hpresent
        obtain rfl : x.opportunityId = id := by simpa using hx
        rw [Present, h] at hpresent
        exact hout _ hpresent.2
    | allocation =>
      refine membersOf_eq_filter (p := fun x => !decide (x.allocationId = id)) ?_ ?_
      · rw [h]
        exact filter_comm ..
      · intro x hmem hx hpresent
        obtain rfl : x.allocationId = id := by simpa using hx
        obtain rfl := (mem_membersOf.1 hmem).2
        rw [Present, h] at hpresent
        exact hout _ hpresent.1
    | _ => exact membersOf_eq_filter_of_same (by rw [h]; rfl)
  | others h =>
    obtain ⟨x, hx⟩ := h
    exact membersOf_eq_filter_of_same (by rw [hx])
  | same h => exact membersOf_eq_filter_of_same (by rw [h])

/-- The event writes no list of the allocation, or is refused. -/
def Spares (detail : Detail) (collate : String → String → Bool) (a : ℤ) (db : RuleDb)
    (e : RuleEvent) : Prop :=
  (write detail collate db e).isSome = true → ∀ l ∈ e.list, l.1 ≠ a

instance (a : ℤ) (db : RuleDb) (e : RuleEvent) : Decidable (Spares detail collate a db e) :=
  inferInstanceAs (Decidable (_ → _))

theorem membersOf_step (db : RuleDb) {e : RuleEvent} {a : ℤ}
    (hlist : Spares detail collate a db e) :
    membersOf (step detail collate db e).tables.memberships a =
      (membersOf db.tables.memberships a).filter fun x =>
        Present (step detail collate db e) a x.opportunityId := by
  rcases step_cases detail collate db e with ⟨-, hsame⟩ | ⟨after, hwrite, hstep, heffect⟩
  · exact membersOf_eq_filter_of_same (by rw [hsame])
  · rw [hstep]
    exact heffect.membersOf (hlist (by rw [hwrite]; rfl))

/-- The allocation and the opportunity exist after every step of the run. -/
def Stays (detail : Detail) (collate : String → String → Bool) (db : RuleDb) (evs : List RuleEvent)
    (a o : ℤ) : Prop :=
  Along (step detail collate) db (fun _ db _ => Present db a o) evs ∧
    Present (run (step detail collate) db evs) a o

instance (db : RuleDb) (evs : List RuleEvent) (a o : ℤ) :
    Decidable (Stays detail collate db evs a o) := inferInstanceAs (Decidable (_ ∧ _))

theorem stays_snoc {db : RuleDb} {evs : List RuleEvent} {e : RuleEvent} {a o : ℤ} :
    Stays detail collate db (evs ++ [e]) a o ↔ Stays detail collate db evs a o ∧
      Present (step detail collate (run (step detail collate) db evs) e) a o := by
  rw [Stays, along_snoc, run_snoc]
  rfl

theorem membersOf_run (db : RuleDb) {evs : List RuleEvent} {a : ℤ}
    (hlist : Along (step detail collate) db (fun _ => Spares detail collate a) evs) :
    membersOf (run (step detail collate) db evs).tables.memberships a =
      (membersOf db.tables.memberships a).filter fun x =>
        Stays detail collate db evs a x.opportunityId := by
  induction evs using List.reverseRecOn with
  | nil =>
    refine (List.filter_eq_self.2 fun x hx => decide_eq_true ?_).symm
    exact ⟨along_nil, present_of_mem db hx⟩
  | append_singleton evs e ih =>
    obtain ⟨hrest, hlast⟩ := (along_snoc evs e).1 hlist
    rw [run_snoc, membersOf_step _ hlast, ih hrest, List.filter_filter]
    refine List.filter_congr fun x _ => ?_
    rw [← Bool.decide_and, decide_eq_decide, and_comm, stays_snoc]

/-- A list that is written is the one that is read. -/
theorem Effect.opportunityIds {db after : RuleDb} {e : RuleEvent} {a : ℤ} {ids : List ℤ}
    (h : Effect db after e) (hlist : e.list = some (a, ids)) :
    after.tables.opportunityIds a = ids.dedup := by
  have hnone : e.list ≠ none := by rw [hlist]; exact nofun
  cases h with
  | allocations b ids' h hids =>
    obtain ⟨x, hx⟩ := h.frame
    obtain ⟨ids', rfl, heq⟩ := Option.map_eq_some_iff.1 (hids.symm.trans hlist)
    obtain ⟨rfl, rfl⟩ := Prod.mk.inj heq
    rw [hx]
    exact opportunityIds_replace ..
  | opportunities _ h => exact absurd h hnone
  | trades _ h => exact absurd h hnone
  | review _ _ _ _ _ h => exact absurd h hnone
  | active _ _ h => exact absurd h hnone
  | removed _ _ _ _ h => exact absurd h hnone
  | others _ h => exact absurd h hnone
  | same _ h => exact absurd h hnone

/-- **An allocation lists what was written last**, in that order and each opportunity once, without
the opportunities that were deleted since, whatever other writers did in between. -/
theorem allocation_list_run {db after : RuleDb} {e : RuleEvent} {evs : List RuleEvent} {a : ℤ}
    {ids : List ℤ} (hlist : e.list = some (a, ids))
    (hwrite : write detail collate db e = some after)
    (hrest : Along (step detail collate) after (fun _ => Spares detail collate a) evs) :
    (run (step detail collate) after evs).tables.opportunityIds a =
      ids.dedup.filter fun o => Stays detail collate after evs a o := by
  have hread : ∀ t : RuleTables, t.opportunityIds a =
      (sortedBy Membership.sortOrder (membersOf t.memberships a)).map Membership.opportunityId :=
    fun _ => rfl
  have hwritten := (effect_of_write hwrite).opportunityIds hlist
  rw [hread, membersOf_run after hrest, ← filter_sortedBy, ← hwritten, hread, List.filter_map]
  rfl

theorem listTwice_written :
    (write (fun _ => "") (fun a b => a ≤ b) twoRulesDb listTwice).isSome = true := by
  decide +kernel

theorem allocation_list_run_listTwice :
    (run (step (fun _ => "") fun a b => a ≤ b)
      ((write (fun _ => "") (fun a b => a ≤ b) twoRulesDb listTwice).get listTwice_written)
      [.deleteStrict .opportunity 1, listTwice]).tables.opportunityIds 5 = [2] :=
  -- sent again, the list is refused: one of its rules is gone
  (allocation_list_run rfl (Option.some_get listTwice_written).symm (by decide +kernel)).trans
    (by decide +kernel)

/-! ## Reviews -/

/-- When the trade's review was called done. -/
def stampOf (db : RuleDb) (id : ℤ) : Option Instant :=
  (db.tables.reviews.get id).bind Review.reviewedAt

section History

variable (detail : Detail) (collate : String → String → Bool) (id : ℤ)

/-- What a step says of the trade's review, where it goes through. -/
def heard (db : RuleDb) (e : RuleEvent) : List (Latch.Signal Instant) :=
  if (write detail collate db e).isSome then
    (e.verdict.toList.filter fun v => v.1 = id).map Prod.snd
  else []

/-- The confirms and reopenings of the trade's review that went through. -/
def history (db : RuleDb) : List RuleEvent → List (Latch.Signal Instant)
  | [] => []
  | e :: evs => heard detail collate id db e ++ history (step detail collate db e) evs

end History

theorem stamp_eq_next (now : Instant) (stored : Option Instant) (reviewed : Option Bool) :
    stamp now stored reviewed = (reviewed.map (signal now)).elim stored (Latch.next stored) := by
  rcases reviewed with _ | _ | _ <;> rfl

theorem tradeId_merge (c : ReviewChanges) (now : Instant) (r : Review) :
    (c.merge now r).tradeId = r.tradeId := rfl

/-- The review of a trade after it was written. -/
theorem get_putReview (t : RuleTables) (c : ReviewChanges) (now : Instant) (newId id id' : ℤ) :
    (t.putReview c now newId id).reviews.get id' =
      if id = id' then some ((t.reviews.get id').elim (c.create now newId id) (c.merge now))
      else t.reviews.get id' := by
  have hput : (t.putReview c now newId id).reviews =
      t.reviews.upsert (c.create now newId id) (c.merge now) (tradeId_merge c now) := rfl
  rw [hput, Table.get_upsert]
  rfl

theorem stampOf_putReview {db after : RuleDb} {c : ReviewChanges} {now : Instant}
    {newId id id' : ℤ} (h : after.tables = db.tables.putReview c now newId id) :
    stampOf after id' = if id = id' then
      (c.reviewed.map (signal now)).elim (stampOf db id') (Latch.next (stampOf db id'))
      else stampOf db id' := by
  rw [stampOf, h, get_putReview]
  split
  · rw [Option.bind_some, ← stamp_eq_next, stampOf]
    cases db.tables.reviews.get id' with
    | none => rfl
    | some r => rfl
  · rfl

/-- A step leaves the reviews, or writes one. -/
theorem Effect.reviews {db after : RuleDb} {e : RuleEvent} (h : Effect db after e) :
    (after.tables.reviews = db.tables.reviews ∧ e.verdict = none) ∨
      ∃ now newId id c, after.tables = db.tables.putReview c now newId id ∧
        e.verdict = c.reviewed.map fun b => (id, signal now b) := by
  cases h with
  | opportunities h _ hverdict =>
    obtain ⟨x, hx⟩ := h.frame
    exact .inl ⟨by rw [hx], hverdict⟩
  | allocations b ids h _ hverdict =>
    obtain ⟨x, hx⟩ := h.frame
    exact .inl ⟨by rw [hx], hverdict⟩
  | trades h _ hverdict =>
    obtain ⟨x, hx⟩ := h.frame
    exact .inl ⟨by rw [hx], hverdict⟩
  | review now newId id c h _ hverdict => exact .inr ⟨now, newId, id, c, h.frame, hverdict⟩
  | active h _ _ hverdict =>
    obtain ⟨x, y, hx⟩ := h
    exact .inl ⟨by rw [hx], hverdict⟩
  | removed k id h hfree _ hverdict => exact .inl ⟨h ▸ (Strategy.removed hfree).reviews, hverdict⟩
  | others h _ hverdict =>
    obtain ⟨x, hx⟩ := h
    exact .inl ⟨by rw [hx], hverdict⟩
  | same h _ hverdict => exact .inl ⟨by rw [h], hverdict⟩

/-- Only a verdict on the trade touches its stamp. -/
theorem Effect.stampOf {db after : RuleDb} {e : RuleEvent} (h : Effect db after e) (id : ℤ) :
    stampOf after id = Latch.after (stampOf db id)
      ((e.verdict.toList.filter fun v => v.1 = id).map Prod.snd) := by
  rcases h.reviews with ⟨hreviews, hverdict⟩ | ⟨now, newId, id', c, hput, hverdict⟩
  · rw [hverdict, Strategy.stampOf, hreviews]
    rfl
  · rw [stampOf_putReview hput, hverdict]
    cases c.reviewed with
    | none => simp [Latch.after]
    | some b =>
      by_cases hid : id' = id
      · simp [hid, Latch.after]
      · simp [hid, Latch.after]

theorem stampOf_step (db : RuleDb) (e : RuleEvent) (id : ℤ) :
    stampOf (step detail collate db e) id =
      Latch.after (stampOf db id) (heard detail collate id db e) := by
  rcases step_cases detail collate db e with ⟨hwrite, hsame⟩ | ⟨after, hwrite, hstep, heffect⟩
  · rw [hsame, heard, hwrite]
    rfl
  · rw [hstep, heard, hwrite, heffect.stampOf id]
    rfl

theorem stampOf_run (db : RuleDb) (evs : List RuleEvent) (id : ℤ) :
    stampOf (run (step detail collate) db evs) id =
      Latch.after (stampOf db id) (history detail collate id db evs) := by
  induction evs generalizing db with
  | nil => rfl
  | cons e evs ih =>
    rw [history, Latch.after, List.foldl_append]
    refine (ih (step detail collate db e)).trans ?_
    rw [stampOf_step]
    rfl

/-- The review is the one that was made then. -/
def SameReview (r r' : Review) : Prop := r'.id = r.id ∧ r'.createdAt = r.createdAt

/-- A review that was written once stays. -/
theorem Effect.review_kept {db after : RuleDb} {e : RuleEvent} (h : Effect db after e) {id : ℤ}
    {r : Review} (hr : db.tables.reviews.get id = some r) :
    ∃ r', after.tables.reviews.get id = some r' ∧ SameReview r r' := by
  rcases h.reviews with ⟨hreviews, -⟩ | ⟨now, newId, id', c, hput, -⟩
  · exact ⟨r, hreviews ▸ hr, rfl, rfl⟩
  · rw [hput, get_putReview, hr]
    split
    · exact ⟨_, rfl, rfl, rfl⟩
    · exact ⟨r, rfl, rfl, rfl⟩

theorem review_kept_run {db : RuleDb} {id : ℤ} {r : Review}
    (hr : db.tables.reviews.get id = some r) (evs : List RuleEvent) :
    ∃ r', (run (step detail collate) db evs).tables.reviews.get id = some r' ∧ SameReview r r' := by
  induction evs using List.reverseRecOn with
  | nil => exact ⟨r, hr, rfl, rfl⟩
  | append_singleton evs e ih =>
    obtain ⟨r', hr', hid, hcreated⟩ := ih
    rw [run_snoc]
    rcases step_cases detail collate (run (step detail collate) db evs) e with
      ⟨-, hsame⟩ | ⟨after, -, hstep, heffect⟩
    · exact ⟨r', by rw [hsame]; exact hr', hid, hcreated⟩
    · obtain ⟨r'', hr'', hid', hcreated'⟩ := heffect.review_kept hr'
      exact ⟨r'', by rw [hstep]; exact hr'', hid'.trans hid, hcreated'.trans hcreated⟩

/-- A trade that has a review is there. -/
theorem trade_of_review (db : RuleDb) {id : ℤ} {r : Review}
    (hr : db.tables.reviews.get id = some r) : db.tables.trades.hasKey id = true := by
  obtain ⟨hmem, rfl⟩ := Table.get_eq_some_iff.1 hr
  exact Table.hasKey_iff_mem_keys.2 (db.holds .reviewTrade r hmem _ rfl)

/-- **A review carries the time of the first confirm since it was last reopened**, whatever else was
written to it or refused, and neither it nor its trade is ever deleted. -/
theorem review_run (db : RuleDb) (evs : List RuleEvent) (id : ℤ) :
    (∀ τ, stampOf (run (step detail collate) db evs) id = some τ ↔
      Latch.FirstSince ((stampOf db id).toList.map .set ++ history detail collate id db evs) τ) ∧
    ∀ r, db.tables.reviews.get id = some r →
      (∃ r', (run (step detail collate) db evs).tables.reviews.get id = some r' ∧
        SameReview r r') ∧
      (run (step detail collate) db evs).tables.trades.hasKey id = true := by
  refine ⟨fun τ => ?_, fun r hr => ?_⟩
  · rw [stampOf_run, Latch.after_eq_after_none, Latch.after_eq_some_iff]
  · obtain ⟨r', hr', hsame⟩ := review_kept_run hr evs
    exact ⟨⟨r', hr', hsame⟩, trade_of_review _ hr'⟩

end Strategy
