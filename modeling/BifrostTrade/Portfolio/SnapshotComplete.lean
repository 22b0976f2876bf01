import BifrostTrade.Portfolio.SnapshotRuns

/-!
# A capture is complete or raises

A capture reads the attribution of all the accounts it is about to write in one call and raises
when nothing came back for any of them.  `captureLaw_iff` says when that tells of every account
whose positions are missing, and that the rows of an account captured for a session stay as they
are, whatever is synced and captured later.
-/

namespace Portfolio.Snapshot

open Py Persistence

/-- The accounts a capture of the session is about to write. -/
def pendingOf (cal : MarketCalendar) (db : Db) (d : Date) : List String :=
  (pendingAccounts (cal.sessionCloseAt d) (capturedAccounts db.snapshots d) db.brokerage).map
    Prod.fst

/-- The open positions of these accounts. -/
def pendingPositions (cal : MarketCalendar) (db : Db) (d : Date) : List (String × String) :=
  ((positionsMeta db.brokerage).map Prod.fst).filter fun p => p.1 ∈ pendingOf cal db d

/-- What a row of the attribution must be of to be one for an open position: its account, or the
position itself. -/
inductive Cover where
  | account
  | position

/-- What a row has to share with a position to cover it. -/
def Cover.Of : Cover → AttributionRow → String × String → Prop
  | .account, r, p => r.position.1 = p.1
  | .position, r, p => r.position = p

instance (cover : Cover) (r : AttributionRow) (p : String × String) :
    Decidable (cover.Of r p) := by
  cases cover <;> exact inferInstanceAs (Decidable (_ = _))

/-- Some account to be written has an open position for which the attribution has no row. -/
def Unattributed (cover : Cover) (cal : MarketCalendar) (db : Db) (d : Date)
    (attribution : List AttributionRow) : Prop :=
  ∃ p ∈ pendingPositions cal db d, ∀ r ∈ attribution, ¬ cover.Of r p

/-- The attribution has no row for any account to be written. -/
def NonePending (cal : MarketCalendar) (db : Db) (d : Date) (attribution : List AttributionRow) :
    Prop :=
  ∀ r ∈ attribution, r.position.1 ∉ pendingOf cal db d

/-- The rows of an account for a session, in both tables. -/
def rowsOf (s : Snapshots) (d : Date) (account : String) :
    List NavRow × List PositionSnapshotRow :=
  (s.accountNavDaily.rows.filter fun r => r.snapshotDate = d ∧ r.accountId = account,
    s.positionSnapshotDaily.rows.filter fun r => r.snapshotDate = d ∧ r.row.accountId = account)

/-- A capture raises and writes nothing when an open position of an account to be written is not in
the attribution, and an account captured for the session keeps its rows through every later run. -/
structure CaptureLaw (cover : Cover) (cal : MarketCalendar) (db : Db) (d : Date)
    (attribution : List AttributionRow) : Prop where
  complete : Unattributed cover cal db d attribution →
    (∃ e, capture cal db.brokerage db.snapshots d attribution = .error e) ∧
      snapshotStep cal db (.capture d attribution) = db
  kept : ∀ a ∈ capturedAccounts db.snapshots d, ∀ evs,
    rowsOf (Runs.run (snapshotStep cal) db evs).snapshots d a = rowsOf db.snapshots d a

/-! ## When a capture raises -/

theorem Cover.Of.account_eq {cover : Cover} {r : AttributionRow} {p : String × String}
    (h : cover.Of r p) : r.position.1 = p.1 := by
  cases cover with
  | account => exact h
  | position => exact congrArg Prod.fst h

theorem any_pending_iff {cal : MarketCalendar} {db : Db} {d : Date} {a : String} :
    ((pendingAccounts (cal.sessionCloseAt d) (capturedAccounts db.snapshots d) db.brokerage).any
      fun p => decide (p.1 = a)) = true ↔ a ∈ pendingOf cal db d := by
  simp [pendingOf]

/-- A capture raises exactly when an account to be written has an open position and the attribution
has no row for any of them. -/
theorem capture_error_iff {cal : MarketCalendar} {db : Db} {d : Date}
    {attribution : List AttributionRow} :
    (∃ e, capture cal db.brokerage db.snapshots d attribution = .error e) ↔
      pendingPositions cal db d ≠ [] ∧ NonePending cal db d attribution := by
  have hopen : ((dict (positionsMeta db.brokerage)).filter fun p =>
      (pendingAccounts (cal.sessionCloseAt d) (capturedAccounts db.snapshots d)
        db.brokerage).any fun q => q.1 = p.1.1) = [] ↔ pendingPositions cal db d = [] := by
    rw [List.filter_eq_nil_iff, pendingPositions, List.filter_eq_nil_iff]
    constructor
    · intro h p hp hpend
      obtain ⟨x, hx, rfl⟩ := List.mem_map.1 (mem_dict_key.2 hp)
      exact h x hx (any_pending_iff.2 (by simpa using hpend))
    · intro h x hx hpend
      refine h x.1 (List.mem_map_of_mem (mem_of_mem_dict hx)) ?_
      simpa using any_pending_iff.1 hpend
  have hattr : (attribution.filter fun r =>
      (pendingAccounts (cal.sessionCloseAt d) (capturedAccounts db.snapshots d)
        db.brokerage).any fun q => q.1 = strip (textOrEmpty r.accountId)) = [] ↔
        NonePending cal db d attribution := by
    rw [List.filter_eq_nil_iff]
    exact forall₂_congr fun r _ => not_congr any_pending_iff
  unfold capture
  dsimp only
  split_ifs with hnone herr
  · -- nothing is pending, so no open position is either
    have hempty : pendingPositions cal db d = [] := by
      rw [pendingPositions, List.filter_eq_nil_iff]
      simp [pendingOf, hnone]
    simp [hempty]
  · rw [hattr, ne_eq, hopen] at herr
    exact iff_of_true ⟨_, rfl⟩ herr
  · rw [hattr, ne_eq, hopen] at herr
    exact iff_of_false (by simp) herr

/-! ## Captured accounts keep their rows -/

theorem not_captured_of_pending {closeAt : Instant} {captured : List String} {b : Brokerage}
    {p : String × AccountRow} (h : p ∈ pendingAccounts closeAt captured b) : p.1 ∉ captured := by
  have h := (List.mem_filter.1 (mem_of_mem_dict h)).2
  simp only [decide_eq_true_eq] at h
  exact h.1

/-- A captured account is not among those a capture of the session writes. -/
theorem rowsOf_capture {cal : MarketCalendar} {b : Brokerage} {s s' : Snapshots} {d d' : Date}
    {attribution : List AttributionRow} {res : CaptureResult} {a : String}
    (ha : a ∈ capturedAccounts s d) (h : capture cal b s d' attribution = .ok (s', res)) :
    rowsOf s' d a = rowsOf s d a := by
  have hnew : ∀ p ∈ pendingAccounts (cal.sessionCloseAt d') (capturedAccounts s d') b,
      ¬ (d' = d ∧ p.1 = a) := by
    rintro p hp ⟨rfl, rfl⟩
    exact not_captured_of_pending hp ha
  unfold capture at h
  dsimp only at h
  split_ifs at h with hnone herr
  · obtain ⟨rfl, -⟩ := Prod.mk.inj (Except.ok.inj h)
    rfl
  · obtain ⟨rfl, -⟩ := Prod.mk.inj (Except.ok.inj h)
    refine Prod.ext (Sql.Table.filter_insertAllOrIgnore fun r hr => ?_)
      (Sql.Table.filter_insertAllOrIgnore fun r hr => ?_)
    · obtain ⟨p, hp, rfl⟩ := List.mem_map.1 hr
      exact decide_eq_false (hnew p (mem_sortedBy.1 hp))
    · obtain ⟨row, hrow, rfl⟩ := List.mem_map.1 hr
      obtain ⟨x, hx, hacct⟩ := accountId_of_mem_splitRows hrow
      obtain ⟨p, hp, hpx⟩ := List.any_eq_true.1 (List.mem_filter.1 hx).2
      have hrow : p.1 = row.accountId := (of_decide_eq_true hpx).trans hacct
      exact decide_eq_false (hrow ▸ hnew p hp)

theorem mem_capturedAccounts_iff {s : Snapshots} {d : Date} {a : String} :
    a ∈ capturedAccounts s d ↔ (rowsOf s d a).1 ≠ [] := by
  simp only [capturedAccounts, rowsOf, List.mem_map, List.mem_filter, decide_eq_true_eq, ne_eq,
    List.filter_eq_nil_iff, not_forall, not_not, exists_prop, and_assoc]

theorem rowsOf_snapshotStep {cal : MarketCalendar} {db : Db} {d : Date} {a : String}
    (e : SnapshotEvent) (ha : a ∈ capturedAccounts db.snapshots d) :
    rowsOf (snapshotStep cal db e).snapshots d a = rowsOf db.snapshots d a := by
  cases e with
  | sync now l => rfl
  | capture d' attribution =>
    cases hcapture : capture cal db.brokerage db.snapshots d' attribution with
    | ok r =>
      simp only [snapshotStep, hcapture]
      exact rowsOf_capture ha hcapture
    | error e => simp only [snapshotStep, hcapture]

/-- Whatever is synced and captured later, an account's rows of a captured session stay. -/
theorem rowsOf_run {cal : MarketCalendar} {db : Db} {d : Date} {a : String}
    (ha : a ∈ capturedAccounts db.snapshots d) (evs : List SnapshotEvent) :
    rowsOf (Runs.run (snapshotStep cal) db evs).snapshots d a = rowsOf db.snapshots d a := by
  induction evs using List.reverseRecOn with
  | nil => rfl
  | append_singleton evs e ih =>
    have hstill : a ∈ capturedAccounts (Runs.run (snapshotStep cal) db evs).snapshots d := by
      rw [mem_capturedAccounts_iff, ih]
      exact mem_capturedAccounts_iff.1 ha
    rw [Runs.run_snoc, rowsOf_snapshotStep e hstill, ih]

/-! ## The law -/

/-- A capture is complete exactly when every open position of the accounts to be written is in the
attribution, or no row of the attribution is of any of these accounts. -/
theorem captureLaw_iff (cover : Cover) (cal : MarketCalendar) (db : Db) (d : Date)
    (attribution : List AttributionRow) :
    CaptureLaw cover cal db d attribution ↔
      ¬ Unattributed cover cal db d attribution ∨ NonePending cal db d attribution := by
  constructor
  · intro law
    by_cases hmissing : Unattributed cover cal db d attribution
    · exact .inr (capture_error_iff.1 (law.complete hmissing).1).2
    · exact .inl hmissing
  · intro h
    refine ⟨fun hmissing => ?_, fun a ha evs => rowsOf_run ha evs⟩
    have hnone := h.resolve_left (not_not_intro hmissing)
    obtain ⟨p, hp, -⟩ := hmissing
    obtain ⟨e, he⟩ := capture_error_iff.2 ⟨List.ne_nil_of_mem hp, hnone⟩
    exact ⟨⟨e, he⟩, by simp only [snapshotStep, he]⟩

/-- A full read of a second account that holds the same ten shares. -/
def sampleOtherRead : AccountItem := { sampleFullRead with accountId := some "U2" }

/-- Two accounts read after the close. -/
def sampleTwoAccounts : Db :=
  snapshotStep sampleCalendar Db.empty
    (.sync sampleAfterClose (some [sampleFullRead, sampleOtherRead]))

/-- The attribution has the shares of one account only: the other is written without them, for
good. -/
theorem not_captureLaw_hiddenAccount :
    ¬ CaptureLaw .account sampleCalendar sampleTwoAccounts sampleSession [sampleAttribution] ∧
      ¬ CaptureLaw .position sampleCalendar sampleTwoAccounts sampleSession
        [sampleAttribution] := by
  have hpending : ("U2", "AAPL|STK|||") ∈
      pendingPositions sampleCalendar sampleTwoAccounts sampleSession := by decide +kernel
  have hother : ∀ cover : Cover, ¬ cover.Of sampleAttribution ("U2", "AAPL|STK|||") := by
    intro cover h
    exact absurd h.account_eq (by decide +kernel)
  have hsome : ¬ NonePending sampleCalendar sampleTwoAccounts sampleSession
      [sampleAttribution] := fun h =>
    h sampleAttribution (List.mem_singleton_self _) (by decide +kernel)
  have hlaw : ∀ cover : Cover,
      ¬ CaptureLaw cover sampleCalendar sampleTwoAccounts sampleSession [sampleAttribution] := by
    intro cover law
    have hmissing : Unattributed cover sampleCalendar sampleTwoAccounts sampleSession
        [sampleAttribution] := ⟨_, hpending, by simpa using hother cover⟩
    exact hsome (capture_error_iff.1 (law.complete hmissing).1).2
  exact ⟨hlaw .account, hlaw .position⟩

end Portfolio.Snapshot
