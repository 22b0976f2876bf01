import BifrostTrade.Lib.FirstWins
import BifrostTrade.Portfolio.SnapshotMarks

/-!
# Greeks over runs of capture and enrich

Enrich fills every empty Greek of a row by itself, from whatever vendor row its run reads, and comes
back to a row as long as its delta, IV, mark or close is missing.  The Greeks of a row are those of
one vendor row exactly when no run adds one to a row whose other Greeks it does not read as they
are stored (`greeksLaw_iff`).
-/

namespace Portfolio.Snapshot

open Py Persistence FirstWins

/-! ## The Greeks of a row -/

/-- The columns that describe a vendor snapshot. -/
inductive GreekColumn where
  | delta
  | gamma
  | vega
  | theta
  | iv
  | greeksAsof
  deriving DecidableEq

/-- A column's value; a time is its number of microseconds. -/
def VendorValues.greek (v : VendorValues) : GreekColumn → Option ℚ
  | .delta => v.delta
  | .gamma => v.gamma
  | .vega => v.vega
  | .theta => v.theta
  | .iv => v.iv
  | .greeksAsof => v.greeksAsof.map fun t : Instant => (t : ℚ)

/-- What a vendor row has for each column. -/
def ChainRow.greek (hit : ChainRow) : GreekColumn → Option ℚ
  | .delta => hit.delta.finite
  | .gamma => hit.gamma.finite
  | .vega => hit.vega.finite
  | .theta => hit.theta.finite
  | .iv => hit.iv.finite
  | .greeksAsof => hit.snapshotTs.map fun t : Instant => (t : ℚ)

section Law

variable (cal : MarketCalendar) (bsPrice : BsPrice)

/-- What a run of enrich found for a row of its session; none where the run raises. -/
def runValues (db : Db) (d : Date) (reads : EnrichReads) (r : PositionSnapshotRow) :
    Option EnrichValues :=
  let rows := (stored db).filter (toEnrich d)
  (readCloses reads rows d).map fun closes =>
    enrichValues bsPrice reads closes (if rows.any isOptRow then reads.sessionBounds d else none)
      d r

/-- The vendor row from which a step writes a stored row. -/
def vendorRow (db : Db) (e : NightlyEvent) (r : PositionSnapshotRow) : Option ChainRow :=
  match e with
  | .book _ => none
  | .enrich d reads =>
      (runValues bsPrice db d reads r).bind fun values =>
        if toEnrich d r ∧ values.any ∧ isOptRow r then chainHit reads d r else none

/-- A step of the run wrote the row with this key from the vendor row. -/
def WrittenFrom (evs : List NightlyEvent) (k : Date × String × String × Option ℤ)
    (hit : ChainRow) : Prop :=
  ∃ pre e, pre ++ [e] <+: evs ∧ ∃ r ∈ stored (Runs.run (nightlyStep cal bsPrice) Db.empty pre),
    r.key = k ∧ vendorRow bsPrice (Runs.run (nightlyStep cal bsPrice) Db.empty pre) e r = some hit

/-- In every state of a run, the Greeks of a stored row are those of one vendor row that one step
wrote it from. -/
def GreeksLaw (evs : List NightlyEvent) : Prop :=
  ∀ pre, pre <+: evs → ∀ r ∈ stored (Runs.run (nightlyStep cal bsPrice) Db.empty pre),
    (∀ c, r.vendor.greek c = none) ∨
      ∃ hit, WrittenFrom cal bsPrice pre r.key hit ∧ PartOf r.vendor.greek hit.greek

/-- The step writes a row only from a vendor row that has all the Greeks stored, or adds none. -/
def OneReading (_ : List NightlyEvent) (db : Db) (e : NightlyEvent) : Prop :=
  ∀ r ∈ stored db, ∀ hit, vendorRow bsPrice db e r = some hit →
    PartOf r.vendor.greek hit.greek ∨ Covers r.vendor.greek hit.greek

/-! ## One step -/

/-- A row after a run of enrich. -/
def rowAfter (db : Db) (d : Date) (reads : EnrichReads) (r : PositionSnapshotRow) :
    PositionSnapshotRow :=
  match runValues bsPrice db d reads r with
  | none => r
  | some values => enrichRow d (fun _ => values) r

theorem rowAfter_key (db : Db) (d : Date) (reads : EnrichReads) (r : PositionSnapshotRow) :
    (rowAfter bsPrice db d reads r).key = r.key := by
  unfold rowAfter
  split
  · rfl
  · exact enrichRow_key d _ r

theorem stored_enrich_eq (db : Db) (d : Date) (reads : EnrichReads) :
    stored (nightlyStep cal bsPrice db (.enrich d reads)) =
      (stored db).map (rowAfter bsPrice db d reads) := by
  have hunfold : rowAfter bsPrice db d reads = fun r =>
      match readCloses reads ((stored db).filter (toEnrich d)) d with
      | none => r
      | some closes => enrichRow d (enrichValues bsPrice reads closes
          (if ((stored db).filter (toEnrich d)).any isOptRow then reads.sessionBounds d else none)
          d) r := by
    funext r
    unfold rowAfter runValues
    dsimp only
    cases readCloses reads ((stored db).filter (toEnrich d)) d with
    | none => rfl
    | some closes => rfl
  by_cases hsel : (stored db).filter (toEnrich d) = []
  · have hnot : ∀ r ∈ stored db, ¬ toEnrich d r = true := List.filter_eq_nil_iff.1 hsel
    have hsame : (stored db).map (rowAfter bsPrice db d reads) = stored db := by
      refine (List.map_congr_left fun r hr => ?_).trans (List.map_id _)
      rw [hunfold]
      dsimp only
      split
      · rfl
      · rw [enrichRow, if_neg fun h => hnot r hr h.1]
        rfl
    rw [hsame]
    unfold stored at hsel
    unfold stored nightlyStep enrich
    dsimp only
    rw [if_pos hsel]
  · rw [hunfold]
    unfold stored at hsel
    unfold stored nightlyStep enrich
    dsimp only
    rw [if_neg hsel]
    cases readCloses reads (db.snapshots.positionSnapshotDaily.rows.filter (toEnrich d)) d with
    | none => exact (List.map_id _).symm
    | some closes => rfl

theorem greek_fill (v : EnrichValues) (r : PositionSnapshotRow) :
    (v.fill r).vendor.greek = fill r.vendor.greek v.vendor.greek := by
  funext c
  cases c with
  | greeksAsof =>
    simp only [EnrichValues.fill, VendorValues.greek, fill]
    exact Option.map_or
  | _ => rfl

/-- What a run finds for the Greeks of a row is what its vendor row has. -/
theorem greek_enrichValues (reads : EnrichReads) (closes : List (String × Option ℚ))
    (bounds : Option (Instant × Instant)) (d : Date) (r : PositionSnapshotRow) :
    (enrichValues bsPrice reads closes bounds d r).vendor.greek =
      ((if isOptRow r then chainHit reads d r else none).map ChainRow.greek).getD
        fun _ => none := by
  unfold enrichValues
  dsimp only
  split_ifs with hopt
  · cases chainHit reads d r with
    | none =>
      funext c
      cases c <;> rfl
    | some hit =>
      funext c
      cases c <;> rfl
  · funext c
    cases c <;> rfl

theorem greek_runValues {db : Db} {d : Date} {reads : EnrichReads} {r : PositionSnapshotRow}
    {values : EnrichValues} (h : runValues bsPrice db d reads r = some values) :
    values.vendor.greek =
      ((if isOptRow r then chainHit reads d r else none).map ChainRow.greek).getD
        fun _ => none := by
  obtain ⟨closes, -, rfl⟩ := Option.map_eq_some_iff.1 h
  exact greek_enrichValues bsPrice reads closes _ d r

/-- A run fills the Greeks of a row from its vendor row. -/
theorem greek_rowAfter (db : Db) (d : Date) (reads : EnrichReads) (r : PositionSnapshotRow) :
    (rowAfter bsPrice db d reads r).vendor.greek =
      fill r.vendor.greek
        (((vendorRow bsPrice db (.enrich d reads) r).map ChainRow.greek).getD fun _ => none) := by
  have hsame : fill r.vendor.greek (fun _ => none) = r.vendor.greek :=
    fill_of_covers fun _ _ => rfl
  unfold rowAfter vendorRow
  dsimp only
  cases hvalues : runValues bsPrice db d reads r with
  | none => exact hsame.symm
  | some values =>
    have hgreek := greek_runValues bsPrice hvalues
    simp only [Option.bind_some, enrichRow]
    by_cases hwrites : toEnrich d r = true ∧ values.any = true
    · rw [if_pos hwrites, greek_fill, hgreek]
      by_cases hopt : isOptRow r = true
      · rw [if_pos hopt, if_pos ⟨hwrites.1, hwrites.2, hopt⟩]
      · rw [if_neg hopt, if_neg fun h => hopt h.2.2]
    · rw [if_neg hwrites, if_neg fun h => hwrites ⟨h.1, h.2.1⟩]
      exact hsame.symm

/-! ## Sources of a row -/

/-- The Greeks of the vendor rows a run wrote the row from. -/
def sources (evs : List NightlyEvent) (k : Date × String × String × Option ℤ) :
    Set (GreekColumn → Option ℚ) :=
  {g | ∃ hit, WrittenFrom cal bsPrice evs k hit ∧ g = hit.greek}

theorem oneSource_iff {evs : List NightlyEvent} {r : PositionSnapshotRow} :
    OneSource (sources cal bsPrice evs r.key) r.vendor.greek ↔
      (∀ c, r.vendor.greek c = none) ∨
        ∃ hit, WrittenFrom cal bsPrice evs r.key hit ∧ PartOf r.vendor.greek hit.greek := by
  refine or_congr Iff.rfl ⟨?_, ?_⟩
  · rintro ⟨g, ⟨hit, hwritten, rfl⟩, hpart⟩
    exact ⟨hit, hwritten, hpart⟩
  · rintro ⟨hit, hwritten, hpart⟩
    exact ⟨_, ⟨hit, hwritten, rfl⟩, hpart⟩

theorem writtenFrom_snoc {evs : List NightlyEvent} {e : NightlyEvent}
    {k : Date × String × String × Option ℤ} {hit : ChainRow} :
    WrittenFrom cal bsPrice (evs ++ [e]) k hit ↔ WrittenFrom cal bsPrice evs k hit ∨
      ∃ r ∈ stored (Runs.run (nightlyStep cal bsPrice) Db.empty evs), r.key = k ∧
        vendorRow bsPrice (Runs.run (nightlyStep cal bsPrice) Db.empty evs) e r = some hit := by
  constructor
  · rintro ⟨pre, e', hprefix, r, hr, hk, hrow⟩
    rcases List.prefix_concat_iff.1 hprefix with heq | hprefix
    · obtain ⟨rfl, he⟩ := List.append_inj' heq rfl
      obtain rfl : e' = e := by simpa using he
      exact .inr ⟨r, hr, hk, hrow⟩
    · exact .inl ⟨pre, e', hprefix, r, hr, hk, hrow⟩
  · rintro (⟨pre, e', hprefix, hrow⟩ | hrow)
    · exact ⟨pre, e', hprefix.trans (List.prefix_append _ _), hrow⟩
    · exact ⟨evs, e, List.prefix_rfl, hrow⟩

/-- What every state of a run keeps: a row that was written is stored, and a row has a value
wherever a vendor row it was written from has one. -/
structure Sourced (evs : List NightlyEvent) (db : Db) : Prop where
  stored : ∀ k hit, WrittenFrom cal bsPrice evs k hit → ∃ r ∈ stored db, r.key = k
  covered : ∀ r ∈ Snapshot.stored db, ∀ g ∈ sources cal bsPrice evs r.key,
    Covers r.vendor.greek g

theorem sourced_nil : Sourced cal bsPrice [] Db.empty where
  stored k hit h := by
    obtain ⟨pre, e, hprefix, -⟩ := h
    simp at hprefix
  covered r hr := by
    simp [stored, Db.empty] at hr

theorem key_kept (db : Db) (e : NightlyEvent) {r : PositionSnapshotRow} (hr : r ∈ stored db) :
    ∃ r' ∈ stored (nightlyStep cal bsPrice db e), r'.key = r.key := by
  cases e with
  | book e => exact ⟨r, kept_book cal bsPrice e hr, rfl⟩
  | enrich d reads =>
    rw [stored_enrich_eq]
    exact ⟨_, List.mem_map_of_mem hr, rowAfter_key bsPrice db d reads r⟩

/-- A row after a step: the row of its key before it, or one of a new key without Greeks. -/
theorem row_step {evs : List NightlyEvent} {e : NightlyEvent} {r' : PositionSnapshotRow}
    (hr' : r' ∈ stored (nightlyStep cal bsPrice
      (Runs.run (nightlyStep cal bsPrice) Db.empty evs) e)) :
    (∃ r ∈ stored (Runs.run (nightlyStep cal bsPrice) Db.empty evs), r'.key = r.key ∧
      r'.vendor.greek = fill r.vendor.greek
        (((vendorRow bsPrice (Runs.run (nightlyStep cal bsPrice) Db.empty evs) e r).map
          ChainRow.greek).getD fun _ => none)) ∨
      (∀ r ∈ stored (Runs.run (nightlyStep cal bsPrice) Db.empty evs), r.key ≠ r'.key) ∧
        ∀ c, r'.vendor.greek c = none := by
  cases e with
  | enrich d reads =>
    rw [stored_enrich_eq] at hr'
    obtain ⟨r, hr, rfl⟩ := List.mem_map.1 hr'
    exact .inl ⟨r, hr, rowAfter_key bsPrice _ d reads r, greek_rowAfter bsPrice _ d reads r⟩
  | book e =>
    by_cases hold : r' ∈ stored (Runs.run (nightlyStep cal bsPrice) Db.empty evs)
    · exact .inl ⟨r', hold, rfl, (fill_of_covers fun _ _ => rfl).symm⟩
    · right
      refine ⟨fun r hr hkey => hold ?_, ?_⟩
      · -- the table has one row of a key
        have hsame : r = r' := Sql.Table.eq_of_key _ (kept_book cal bsPrice e hr) hr' hkey
        exact hsame ▸ hr
      · rcases mem_stored_book cal bsPrice hr' with hr | ⟨d, time, attribution, row, -, rfl⟩
        · exact absurd hr hold
        · intro c
          cases c <;> rfl

/-- The sources of a row grow by the vendor row of the step. -/
theorem mem_sources_snoc {evs : List NightlyEvent} {e : NightlyEvent} {r : PositionSnapshotRow}
    (hr : r ∈ stored (Runs.run (nightlyStep cal bsPrice) Db.empty evs))
    {g : GreekColumn → Option ℚ} :
    g ∈ sources cal bsPrice (evs ++ [e]) r.key ↔ g ∈ sources cal bsPrice evs r.key ∨
      ∃ hit, vendorRow bsPrice (Runs.run (nightlyStep cal bsPrice) Db.empty evs) e r = some hit ∧
        g = hit.greek := by
  constructor
  · rintro ⟨hit, hwritten, rfl⟩
    rcases (writtenFrom_snoc cal bsPrice).1 hwritten with hwritten | ⟨s, hs, hkey, hrow⟩
    · exact .inl ⟨hit, hwritten, rfl⟩
    · obtain rfl : s = r := Sql.Table.eq_of_key _ hs hr hkey
      exact .inr ⟨hit, hrow, rfl⟩
  · rintro (⟨hit, hwritten, rfl⟩ | ⟨hit, hrow, rfl⟩)
    · exact ⟨hit, (writtenFrom_snoc cal bsPrice).2 (.inl hwritten), rfl⟩
    · exact ⟨hit, (writtenFrom_snoc cal bsPrice).2 (.inr ⟨r, hr, rfl, hrow⟩), rfl⟩

theorem Sourced.step {evs : List NightlyEvent} {e : NightlyEvent}
    (h : Sourced cal bsPrice evs (Runs.run (nightlyStep cal bsPrice) Db.empty evs)) :
    Sourced cal bsPrice (evs ++ [e])
      (nightlyStep cal bsPrice (Runs.run (nightlyStep cal bsPrice) Db.empty evs) e) where
  stored k hit hwritten := by
    have hold : ∃ r ∈ Snapshot.stored (Runs.run (nightlyStep cal bsPrice) Db.empty evs),
        r.key = k := by
      rcases (writtenFrom_snoc cal bsPrice).1 hwritten with hwritten | ⟨r, hr, hkey, -⟩
      · exact h.stored k hit hwritten
      · exact ⟨r, hr, hkey⟩
    obtain ⟨r, hr, rfl⟩ := hold
    exact key_kept cal bsPrice _ e hr
  covered r' hr' g hg := by
    rcases row_step cal bsPrice hr' with ⟨r, hr, hkey, hgreek⟩ | ⟨hnew, -⟩
    · rw [hkey] at hg
      rw [hgreek]
      rcases (mem_sources_snoc cal bsPrice hr).1 hg with hg | ⟨hit, hrow, rfl⟩
      · exact (h.covered r hr g hg).fill _
      · rw [hrow]
        exact covers_fill _ _
    · obtain ⟨hit, hwritten, -⟩ := hg
      rcases (writtenFrom_snoc cal bsPrice).1 hwritten with hwritten | ⟨r, hr, hkey, -⟩
      · obtain ⟨r, hr, hkey⟩ := h.stored _ hit hwritten
        exact absurd hkey (hnew r hr)
      · exact absurd hkey (hnew r hr)

theorem sourced_run (evs : List NightlyEvent) :
    Sourced cal bsPrice evs (Runs.run (nightlyStep cal bsPrice) Db.empty evs) := by
  induction evs using List.reverseRecOn with
  | nil => exact sourced_nil cal bsPrice
  | append_singleton evs e ih =>
    rw [Runs.run_snoc]
    exact ih.step

/-! ## Runs -/

/-- The rows of a state have one source each. -/
def AllOneSource (evs : List NightlyEvent) (db : Db) : Prop :=
  ∀ r ∈ stored db, OneSource (sources cal bsPrice evs r.key) r.vendor.greek

/-- A row with one source keeps one through a step exactly when the step's vendor row reads the
stored Greeks, or adds none. -/
theorem oneSource_step {evs : List NightlyEvent} {e : NightlyEvent} {r : PositionSnapshotRow}
    (hr : r ∈ stored (Runs.run (nightlyStep cal bsPrice) Db.empty evs))
    (hone : OneSource (sources cal bsPrice evs r.key) r.vendor.greek) {hit : ChainRow}
    (hrow : vendorRow bsPrice (Runs.run (nightlyStep cal bsPrice) Db.empty evs) e r = some hit) :
    OneSource (sources cal bsPrice (evs ++ [e]) r.key) (fill r.vendor.greek hit.greek) ↔
      PartOf r.vendor.greek hit.greek ∨ Covers r.vendor.greek hit.greek := by
  have hinsert : sources cal bsPrice (evs ++ [e]) r.key =
      insert hit.greek (sources cal bsPrice evs r.key) := by
    ext g
    rw [mem_sources_snoc cal bsPrice hr, Set.mem_insert_iff, or_comm]
    refine or_congr ⟨?_, fun hg => ⟨hit, hrow, hg⟩⟩ Iff.rfl
    rintro ⟨hit', hrow', rfl⟩
    rw [Option.some.inj (hrow.symm.trans hrow')]
  rw [hinsert]
  exact oneSource_fill_iff ((sourced_run cal bsPrice evs).covered r hr) hone

theorem allOneSource_step {evs : List NightlyEvent} {e : NightlyEvent}
    (hone : AllOneSource cal bsPrice evs (Runs.run (nightlyStep cal bsPrice) Db.empty evs))
    (hread : OneReading bsPrice evs (Runs.run (nightlyStep cal bsPrice) Db.empty evs) e) :
    AllOneSource cal bsPrice (evs ++ [e])
      (nightlyStep cal bsPrice (Runs.run (nightlyStep cal bsPrice) Db.empty evs) e) := by
  intro r' hr'
  rcases row_step cal bsPrice hr' with ⟨r, hr, hkey, hgreek⟩ | ⟨-, hnone⟩
  · rw [hkey, hgreek]
    cases hrow : vendorRow bsPrice (Runs.run (nightlyStep cal bsPrice) Db.empty evs) e r with
    | none =>
      have hsame : fill r.vendor.greek (fun _ => none) = r.vendor.greek :=
        fill_of_covers fun _ _ => rfl
      rw [Option.map_none, Option.getD_none, hsame]
      exact (hone r hr).mono fun g hg => (mem_sources_snoc cal bsPrice hr).2 (.inl hg)
    | some hit =>
      exact (oneSource_step cal bsPrice hr (hone r hr) hrow).2 (hread r hr hit hrow)
  · exact .inl hnone

/-- The step that breaks the law is one that adds to other Greeks than it read. -/
theorem oneReading_of_step (evs : List NightlyEvent) (e : NightlyEvent)
    (hone : AllOneSource cal bsPrice evs (Runs.run (nightlyStep cal bsPrice) Db.empty evs))
    (hnext : AllOneSource cal bsPrice (evs ++ [e])
      (nightlyStep cal bsPrice (Runs.run (nightlyStep cal bsPrice) Db.empty evs) e)) :
    OneReading bsPrice evs (Runs.run (nightlyStep cal bsPrice) Db.empty evs) e := by
  intro r hr hit hrow
  apply (oneSource_step cal bsPrice hr (hone r hr) hrow).1
  obtain ⟨r', hr', hkey⟩ := key_kept cal bsPrice _ e hr
  have hsource := hnext r' hr'
  rcases row_step cal bsPrice hr' with ⟨s, hs, hkey', hgreek⟩ | ⟨hnew, -⟩
  · obtain rfl : s = r := Sql.Table.eq_of_key _ hs hr (hkey'.symm.trans hkey)
    rwa [hkey, hgreek, hrow] at hsource
  · exact absurd hkey.symm (hnew r hr)

/-- The law, read of every state. -/
theorem greeksLaw_states (evs : List NightlyEvent) :
    GreeksLaw cal bsPrice evs ↔ ∀ pre, pre <+: evs →
      AllOneSource cal bsPrice pre (Runs.run (nightlyStep cal bsPrice) Db.empty pre) :=
  forall₂_congr fun _ _ => forall₂_congr fun _ _ => (oneSource_iff cal bsPrice).symm

end Law

/-- The Greeks of the stored rows are each of one vendor row exactly when no step writes a row that
has Greeks from a vendor row with other values for them and a new one. -/
theorem greeksLaw_iff (cal : MarketCalendar) (bsPrice : BsPrice) (evs : List NightlyEvent) :
    GreeksLaw cal bsPrice evs ↔
      Runs.Along (nightlyStep cal bsPrice) Db.empty (OneReading bsPrice) evs := by
  rw [greeksLaw_states]
  constructor
  · rintro hone pre e post rfl
    have hnext := hone (pre ++ [e]) ⟨post, by simp⟩
    rw [Runs.run_snoc] at hnext
    exact oneReading_of_step cal bsPrice pre e (hone pre ⟨e :: post, rfl⟩) hnext
  · rintro hread pre ⟨post, rfl⟩
    refine Runs.invariant (AllOneSource cal bsPrice) (fun r hr => ?_)
      (fun evs e hstep hone => allOneSource_step cal bsPrice hone hstep) hread.of_append
    simp [stored, Db.empty] at hr

/-! ## An IV that comes in later -/

/-- The option chain of the call at one reading; the underlying's close is not there. -/
def sampleReading (delta : ℚ) (iv : Value) (snapshotTs : Instant) : EnrichReads where
  closes _ _ := none
  optionRows _ _ _ := some
    [{ optionTicker := "O:AAPL270115C00280000", delta := .number (.fin delta)
       gamma := .none, vega := .none, theta := .none, iv
       dayClose := .number (.fin 70), snapshotTs := some snapshotTs, lastTradeTs := none }]
  sessionBounds _ := none

/-- The call is captured and read once, without an IV. -/
def sampleFirstNight : List NightlyEvent :=
  [.book (.sync sampleAfterClose (some [sampleCallRead])),
    .book (.capture sampleSession [sampleCallAttribution]),
    .enrich sampleSession (sampleReading (1 / 2) .none 1000000)]

/-- It is read again, with an IV and another delta. -/
def sampleSecondReading : NightlyEvent :=
  .enrich sampleSession (sampleReading (3 / 5) (.number (.fin (3 / 10))) 2000000)

/-- The row takes the delta and the time of the first reading and the IV of the second. -/
theorem not_greeksLaw_laterIv :
    ¬ GreeksLaw sampleCalendar (fun _ _ _ _ _ _ => none)
      (sampleFirstNight ++ [sampleSecondReading]) := by
  intro law
  have hstates := (greeksLaw_states _ _ _).1 law
  have hread := oneReading_of_step sampleCalendar (fun _ _ _ _ _ _ => none) sampleFirstNight
    sampleSecondReading (hstates _ (List.prefix_append _ _)) (hstates _ List.prefix_rfl)
  have hrow : ∃ r ∈ stored (Runs.run (nightlyStep sampleCalendar fun _ _ _ _ _ _ => none) Db.empty
      sampleFirstNight), r.vendor.greek .delta = some (1 / 2) ∧ r.vendor.greek .iv = none ∧
        (vendorRow (fun _ _ _ _ _ _ => none)
          (Runs.run (nightlyStep sampleCalendar fun _ _ _ _ _ _ => none) Db.empty sampleFirstNight)
          sampleSecondReading r).any
          (fun hit => hit.greek .delta = some (3 / 5) ∧ hit.greek .iv = some (3 / 10)) = true := by
    decide +kernel
  obtain ⟨r, hr, hdelta, hiv, hhit⟩ := hrow
  obtain ⟨hit, hsome, hvalues⟩ := (Option.any_eq_true _ _).1 hhit
  obtain ⟨hdelta', hiv'⟩ := of_decide_eq_true hvalues
  rcases hread r hr hit hsome with hpart | hcovers
  · have hsame := hpart .delta (1 / 2) hdelta
    rw [hdelta'] at hsame
    norm_num at hsame
  · have hnone := hcovers .iv hiv
    rw [hiv'] at hnone
    cases hnone

end Portfolio.Snapshot
