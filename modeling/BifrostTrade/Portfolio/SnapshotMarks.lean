import BifrostTrade.Portfolio.SnapshotEnrich
import BifrostTrade.Portfolio.SnapshotRuns

/-!
# Marks over runs of capture and enrich

A mark goes in once and stays with its source.  Enrich checks it against the intrinsic value at
the underlying's close, if it knows that close; a later run may fill the close in afterwards and
does not look at the mark again (`markLaw_iff`).
-/

namespace Portfolio.Snapshot

open Py Persistence

/-- A sync or a capture, or a run of enrich for a session. -/
inductive NightlyEvent where
  | book (e : SnapshotEvent)
  | enrich (snapshotDate : Date) (reads : EnrichReads)

/-- An enrich that raises writes nothing. -/
def nightlyStep (cal : MarketCalendar) (bsPrice : BsPrice) (db : Db) : NightlyEvent → Db
  | .book e => snapshotStep cal db e
  | .enrich d reads =>
      match enrich bsPrice reads db.snapshots d with
      | some (snapshots, _) => { db with snapshots }
      | none => db

/-- The stored position rows. -/
def stored (db : Db) : List PositionSnapshotRow := db.snapshots.positionSnapshotDaily.rows

/-- Whether enrich wrote the row's mark. -/
def eodMarked (r : PositionSnapshotRow) : Bool := r.row.markSource.any fun s => s ∈ markEodSources

/-- Mark and source of a row, kept. -/
def SameMark (r r' : PositionSnapshotRow) : Prop :=
  r'.key = r.key ∧ r'.row.mark = r.row.mark ∧ r'.row.markSource = r.row.markSource

/-- A mark of enrich is not read back as under intrinsic. -/
def NotBelow (r : PositionSnapshotRow) : Prop :=
  eodMarked r = true → markBelowIntrinsic r ≠ some true

/-- In every state of a run, a mark is null exactly with its source, a mark once there stays with
its source, and no mark of enrich is read back as under intrinsic. -/
structure MarkLaw (cal : MarketCalendar) (bsPrice : BsPrice) (evs : List NightlyEvent) : Prop where
  sourced : ∀ pre, pre <+: evs → ∀ r ∈ stored (Runs.run (nightlyStep cal bsPrice) Db.empty pre),
    r.row.mark = none ↔ r.row.markSource = none
  kept : ∀ pre mid, pre ++ mid <+: evs →
    ∀ r ∈ stored (Runs.run (nightlyStep cal bsPrice) Db.empty pre), r.row.mark ≠ none →
      ∃ r' ∈ stored (Runs.run (nightlyStep cal bsPrice) Db.empty (pre ++ mid)), SameMark r r'
  notBelow : ∀ pre, pre <+: evs →
    ∀ r ∈ stored (Runs.run (nightlyStep cal bsPrice) Db.empty pre), NotBelow r

/-- The row with another close of its underlying. -/
def PositionSnapshotRow.withClose (r : PositionSnapshotRow) (close : Option ℚ) :
    PositionSnapshotRow :=
  { r with vendor := { r.vendor with underlyingClose := close } }

/-- Where enrich fills in the close of a row it marked in an earlier run, without that close, the
mark is not under intrinsic at it. -/
def FillsAbove (_ : List NightlyEvent) (db : Db) : NightlyEvent → Prop
  | .book _ => True
  | .enrich d reads =>
      ∀ closes, readCloses reads ((stored db).filter (toEnrich d)) d = some closes →
        ∀ r ∈ stored db, r.snapshotDate = d → eodMarked r = true →
          r.vendor.underlyingClose = none →
            markBelowIntrinsic (r.withClose (closeFor closes r)) ≠ some true

/-! ## A mark is not under the intrinsic value it was checked against -/

theorem optionEodMark_ge {bsPrice : BsPrice} {dayClose iv : Value} {strike : Option ℚ}
    {right : Option String} {expiry : Option Date} {underlyingClose : Option ℚ} {session : Date}
    {traded : Option Instant} {bounds : Option (Instant × Instant)} {m intrinsic : ℚ}
    (hm : (optionEodMark bsPrice dayClose iv strike right expiry underlyingClose session traded
      bounds).1 = some m)
    (hi : intrinsicValue strike right underlyingClose = some intrinsic) :
    intrinsic - intrinsicTolerance ≤ m := by
  have htol : intrinsic - intrinsicTolerance ≤ intrinsic := by
    norm_num [intrinsicTolerance]
  unfold optionEodMark at hm
  split at hm
  · cases hm
  · rw [hi] at hm
    dsimp only at hm
    split_ifs at hm with hkeep
    · obtain rfl := Option.some.inj hm
      exact hkeep.1
    · split at hm
      · split_ifs at hm with hmodel
        · obtain rfl := Option.some.inj hm
          exact htol.trans hmodel
        · obtain rfl := Option.some.inj hm
          exact htol
      · obtain rfl := Option.some.inj hm
        exact htol

theorem markBelowIntrinsic_ne {r : PositionSnapshotRow}
    (h : isOption r = true → ∀ m intrinsic, r.row.mark = some m →
      intrinsicValue r.row.strike r.row.optionRight r.vendor.underlyingClose = some intrinsic →
        intrinsic - intrinsicTolerance ≤ m) : markBelowIntrinsic r ≠ some true := by
  unfold markBelowIntrinsic
  split_ifs with hopt
  · split
    · rename_i m intrinsic hm hi
      have hle := h hopt m intrinsic hm hi
      simpa using hle
    · simp
  · simp

theorem markBelowIntrinsic_withClose_none (r : PositionSnapshotRow) :
    markBelowIntrinsic (r.withClose none) ≠ some true := by
  apply markBelowIntrinsic_ne
  intro _ m intrinsic _ hi
  simp [PositionSnapshotRow.withClose, intrinsicValue] at hi

/-! ## One row -/

/-- What holds of every stored row: it has a mark and a source or neither, and the writer and the
reader agree on whether it is an option. -/
structure RowOk (r : PositionSnapshotRow) : Prop where
  sourced : r.row.mark = none ↔ r.row.markSource = none
  option : isOption r = isOptRow r

theorem RowOk.mark_ne_none {r : PositionSnapshotRow} (h : RowOk r) (heod : eodMarked r = true) :
    r.row.mark ≠ none := by
  intro hnone
  rw [eodMarked, h.sourced.1 hnone] at heod
  cases heod

theorem RowOk.fill {r : PositionSnapshotRow} (h : RowOk r) (v : EnrichValues) :
    RowOk (v.fill r) := by
  refine ⟨?_, h.option⟩
  have hsourced := h.sourced
  simp only [EnrichValues.fill]
  cases hmark : r.row.mark with
  | some m => simpa [hmark] using hsourced
  | none =>
    rw [hmark] at hsourced
    cases v.mark <;> simp [hsourced.1 rfl]

theorem RowOk.enrichRow {r : PositionSnapshotRow} (h : RowOk r) (d : Date)
    (values : PositionSnapshotRow → EnrichValues) : RowOk (enrichRow d values r) := by
  unfold Snapshot.enrichRow
  split_ifs
  · exact h.fill _
  · exact h

theorem SameMark.rfl {r : PositionSnapshotRow} : SameMark r r := ⟨Eq.refl _, Eq.refl _, Eq.refl _⟩

theorem SameMark.trans {r s t : PositionSnapshotRow} (h : SameMark r s) (h' : SameMark s t) :
    SameMark r t :=
  ⟨h'.1.trans h.1, h'.2.1.trans h.2.1, h'.2.2.trans h.2.2⟩

theorem sameMark_fill {r : PositionSnapshotRow} (h : r.row.mark ≠ none) (v : EnrichValues) :
    SameMark r (v.fill r) := by
  obtain ⟨m, hm⟩ := Option.ne_none_iff_exists'.1 h
  refine ⟨Eq.refl _, ?_, ?_⟩
  · simp [EnrichValues.fill, hm]
  · simp [EnrichValues.fill, hm]

theorem sameMark_enrichRow {r : PositionSnapshotRow} (h : r.row.mark ≠ none) (d : Date)
    (values : PositionSnapshotRow → EnrichValues) : SameMark r (enrichRow d values r) := by
  unfold enrichRow
  split_ifs
  · exact sameMark_fill h _
  · exact .rfl

/-- A row that has its mark changes for the reader only by the close that comes in. -/
theorem markBelowIntrinsic_fill {r : PositionSnapshotRow} (h : r.row.mark ≠ none)
    (v : EnrichValues) :
    markBelowIntrinsic (v.fill r) = markBelowIntrinsic
      (r.withClose (r.vendor.underlyingClose.or v.vendor.underlyingClose)) := by
  have hmark : (v.fill r).row.mark = r.row.mark := (sameMark_fill h v).2.1
  unfold markBelowIntrinsic
  rw [hmark]
  rfl

theorem eodMarked_of_sameMark {r r' : PositionSnapshotRow} (h : SameMark r r') :
    eodMarked r' = eodMarked r := by
  rw [eodMarked, eodMarked, h.2.2]

theorem underlyingClose_enrichValues (bsPrice : BsPrice) (reads : EnrichReads)
    (closes : List (String × Option ℚ)) (bounds : Option (Instant × Instant)) (d : Date)
    (r : PositionSnapshotRow) :
    (enrichValues bsPrice reads closes bounds d r).vendor.underlyingClose = closeFor closes r := by
  unfold enrichValues
  dsimp only
  split_ifs
  · split <;> rfl
  · rfl

/-- A mark that goes in was checked against the close the row has afterwards. -/
theorem notBelow_fill_of_unmarked {bsPrice : BsPrice} {reads : EnrichReads}
    {closes : List (String × Option ℚ)} {bounds : Option (Instant × Instant)} {d : Date}
    {r : PositionSnapshotRow} (hr : RowOk r) (h : r.row.mark = none) :
    markBelowIntrinsic ((enrichValues bsPrice reads closes bounds d r).fill r) ≠ some true := by
  apply markBelowIntrinsic_ne
  intro hopt m intrinsic hm hi
  have hoptRow : isOptRow r = true := hr.option ▸ hopt
  simp only [EnrichValues.fill, h, Option.none_or, underlyingClose_enrichValues] at hm hi
  unfold enrichValues at hm
  dsimp only at hm
  rw [if_pos hoptRow] at hm
  split at hm
  · exact optionEodMark_ge hm hi
  · cases hm

theorem NotBelow.enrichRow {bsPrice : BsPrice} {reads : EnrichReads}
    {closes : List (String × Option ℚ)} {bounds : Option (Instant × Instant)} {d : Date}
    {r : PositionSnapshotRow} (hr : RowOk r) (h : NotBelow r)
    (hfill : r.snapshotDate = d → eodMarked r = true → r.vendor.underlyingClose = none →
      markBelowIntrinsic (r.withClose (closeFor closes r)) ≠ some true) :
    NotBelow (enrichRow d (enrichValues bsPrice reads closes bounds d) r) := by
  unfold Snapshot.enrichRow
  split_ifs with hsel
  · have hdate : r.snapshotDate = d := by
      have hsel := hsel.1
      simp only [toEnrich, decide_eq_true_eq] at hsel
      exact hsel.1
    intro heod
    cases hmark : r.row.mark with
    | none => exact notBelow_fill_of_unmarked hr hmark
    | some m =>
      have hne : r.row.mark ≠ none := by simp [hmark]
      have heod : eodMarked r = true := eodMarked_of_sameMark (sameMark_fill hne _) ▸ heod
      rw [markBelowIntrinsic_fill hne, underlyingClose_enrichValues]
      cases hclose : r.vendor.underlyingClose with
      | none => exact hfill hdate heod hclose
      | some c =>
        have hsame : r.withClose (some c) = r := by
          rw [PositionSnapshotRow.withClose, ← hclose]
        rw [Option.some_or, hsame]
        exact h heod
  · exact h

/-! ## What a step does to the rows -/

section Steps

variable (cal : MarketCalendar) (bsPrice : BsPrice)

/-- Rows that a capture brings in. -/
structure Captured (r : PositionSnapshotRow) : Prop where
  ok : RowOk r
  notEod : eodMarked r = false

theorem textOrEmpty_textOrNone (s : String) : textOrEmpty (textOrNone s) = s := by
  unfold textOrNone
  split_ifs with h
  · exact h.symm
  · rfl

/-- The blanks were taken off before the upper case, which brings in none. -/
theorem isOption_of_secType {r : PositionSnapshotRow} {s : String}
    (h : r.row.secType = textOrNone (upper (strip s))) : isOption r = isOptRow r := by
  rw [isOption, isOptRow, h, textOrEmpty_textOrNone, strip_upper, strip_strip]

/-- A captured mark is a live quote, and the security type is without blanks. -/
theorem mark_of_mem_splitRows {attribution : List AttributionRow} {row : SplitRow}
    (h : row ∈ splitRows id attribution) :
    row.markSource = row.mark.map (fun _ => markQuoteLive) ∧
      ∃ s, row.secType = textOrNone (upper (strip s)) := by
  obtain ⟨g, -, hrow⟩ := List.mem_flatMap.1 h
  unfold positionRows at hrow
  split at hrow
  · cases hrow
  · rename_i m _ _
    obtain ⟨s, -, hrow⟩ := List.mem_map.1 hrow
    rw [← hrow]
    refine ⟨?_, textOrEmpty m.secType, ?_⟩
    · dsimp only
    · dsimp only

theorem captured_of_mem_splitRows {attribution : List AttributionRow} {row : SplitRow}
    (h : row ∈ splitRows id attribution) (d : Date) (time : Option Instant) :
    Captured ⟨d, row, time, .empty⟩ := by
  obtain ⟨hsource, s, hsec⟩ := mark_of_mem_splitRows h
  have hlive : markQuoteLive ∉ markEodSources := by decide
  refine ⟨⟨?_, isOption_of_secType hsec⟩, ?_⟩
  · rw [hsource, Option.map_eq_none_iff]
  · rw [eodMarked, hsource]
    cases row.mark with
    | none => rfl
    | some x => exact decide_eq_false hlive

/-- A row after a sync or a capture was there before, or is a new row of an attribution. -/
theorem mem_stored_book {db : Db} {e : SnapshotEvent} {r : PositionSnapshotRow}
    (hr : r ∈ stored (nightlyStep cal bsPrice db (.book e))) :
    r ∈ stored db ∨ ∃ d time attribution, ∃ row ∈ splitRows id attribution,
      r = ⟨d, row, time, .empty⟩ := by
  cases e with
  | sync now l => exact .inl hr
  | capture d attribution =>
    cases hcapture : capture cal db.brokerage db.snapshots d attribution with
    | error e =>
      simp only [nightlyStep, snapshotStep, hcapture] at hr
      exact .inl hr
    | ok res =>
      simp only [nightlyStep, snapshotStep, hcapture] at hr
      unfold capture at hcapture
      dsimp only at hcapture
      split_ifs at hcapture
      · obtain rfl := Except.ok.inj hcapture
        exact .inl hr
      · obtain rfl := Except.ok.inj hcapture
        rcases Sql.Table.mem_of_mem_insertAllOrIgnore hr with hr | hr
        · exact .inl hr
        · obtain ⟨row, hrow, rfl⟩ := List.mem_map.1 hr
          exact .inr ⟨d, _, _, row, hrow, rfl⟩

theorem kept_book {db : Db} (e : SnapshotEvent) {r : PositionSnapshotRow} (hr : r ∈ stored db) :
    r ∈ stored (nightlyStep cal bsPrice db (.book e)) := by
  cases e with
  | sync now l => exact hr
  | capture d attribution =>
    cases hcapture : capture cal db.brokerage db.snapshots d attribution with
    | error e =>
      simp only [nightlyStep, snapshotStep, hcapture]
      exact hr
    | ok res =>
      simp only [nightlyStep, snapshotStep, hcapture]
      unfold capture at hcapture
      dsimp only at hcapture
      split_ifs at hcapture
      · obtain rfl := Except.ok.inj hcapture
        exact hr
      · obtain rfl := Except.ok.inj hcapture
        exact Sql.Table.mem_insertAllOrIgnore_of_mem hr

/-- A capture keeps the rows there are and adds captured ones. -/
theorem stored_book {db : Db} (e : SnapshotEvent) :
    (∀ r ∈ stored db, r ∈ stored (nightlyStep cal bsPrice db (.book e))) ∧
      ∀ r ∈ stored (nightlyStep cal bsPrice db (.book e)), r ∈ stored db ∨ Captured r := by
  refine ⟨fun r hr => kept_book cal bsPrice e hr, fun r hr => ?_⟩
  rcases mem_stored_book cal bsPrice hr with hr | ⟨d, time, attribution, row, hrow, rfl⟩
  · exact .inl hr
  · exact .inr (captured_of_mem_splitRows hrow d time)

/-- An enrich that sees a row of its session goes over the rows with the closes it read. -/
theorem stored_enrich_of_closes {db : Db} {d : Date} {reads : EnrichReads}
    {closes : List (String × Option ℚ)} (hsel : (stored db).filter (toEnrich d) ≠ [])
    (hcloses : readCloses reads ((stored db).filter (toEnrich d)) d = some closes) :
    ∃ bounds, stored (nightlyStep cal bsPrice db (.enrich d reads)) =
      (stored db).map (enrichRow d (enrichValues bsPrice reads closes bounds d)) := by
  unfold stored at hsel hcloses
  unfold nightlyStep enrich
  dsimp only
  rw [if_neg hsel, hcloses]
  exact ⟨_, rfl⟩

theorem stored_enrich (db : Db) (d : Date) (reads : EnrichReads) :
    stored (nightlyStep cal bsPrice db (.enrich d reads)) = stored db ∨
      ∃ closes bounds, readCloses reads ((stored db).filter (toEnrich d)) d = some closes ∧
        stored (nightlyStep cal bsPrice db (.enrich d reads)) =
          (stored db).map (enrichRow d (enrichValues bsPrice reads closes bounds d)) := by
  by_cases hsel : (stored db).filter (toEnrich d) = []
  · left
    unfold stored at hsel
    unfold nightlyStep enrich
    dsimp only
    rw [if_pos hsel]
  · cases hcloses : readCloses reads ((stored db).filter (toEnrich d)) d with
    | some closes =>
      obtain ⟨bounds, h⟩ := stored_enrich_of_closes cal bsPrice hsel hcloses
      exact .inr ⟨closes, bounds, rfl, h⟩
    | none =>
      left
      unfold stored at hsel hcloses
      unfold nightlyStep enrich
      dsimp only
      rw [if_neg hsel, hcloses]
      rfl

theorem rowOk_step {db : Db} (h : ∀ r ∈ stored db, RowOk r) (e : NightlyEvent) :
    ∀ r ∈ stored (nightlyStep cal bsPrice db e), RowOk r := by
  intro r hr
  cases e with
  | book e =>
    rcases (stored_book cal bsPrice e).2 r hr with hr | hr
    · exact h r hr
    · exact hr.ok
  | enrich d reads =>
    rcases stored_enrich cal bsPrice db d reads with heq | ⟨closes, bounds, -, heq⟩
    · exact h r (heq ▸ hr)
    · rw [heq] at hr
      obtain ⟨old, hold, rfl⟩ := List.mem_map.1 hr
      exact (h old hold).enrichRow d _

theorem kept_step {db : Db} {r : PositionSnapshotRow} (hr : r ∈ stored db)
    (hmark : r.row.mark ≠ none) (e : NightlyEvent) :
    ∃ r' ∈ stored (nightlyStep cal bsPrice db e), SameMark r r' := by
  cases e with
  | book e => exact ⟨r, (stored_book cal bsPrice e).1 r hr, .rfl⟩
  | enrich d reads =>
    rcases stored_enrich cal bsPrice db d reads with heq | ⟨closes, bounds, -, heq⟩
    · exact ⟨r, heq ▸ hr, .rfl⟩
    · rw [heq]
      exact ⟨_, List.mem_map_of_mem hr, sameMark_enrichRow hmark d _⟩

theorem notBelow_step {db : Db} (hok : ∀ r ∈ stored db, RowOk r)
    (hbelow : ∀ r ∈ stored db, NotBelow r) {pre : List NightlyEvent} {e : NightlyEvent}
    (hfill : FillsAbove pre db e) : ∀ r ∈ stored (nightlyStep cal bsPrice db e), NotBelow r := by
  intro r hr
  cases e with
  | book e =>
    rcases (stored_book cal bsPrice e).2 r hr with hr | hr
    · exact hbelow r hr
    · intro heod
      rw [hr.notEod] at heod
      cases heod
  | enrich d reads =>
    rcases stored_enrich cal bsPrice db d reads with heq | ⟨closes, bounds, hcloses, heq⟩
    · exact hbelow r (heq ▸ hr)
    · rw [heq] at hr
      obtain ⟨old, hold, rfl⟩ := List.mem_map.1 hr
      exact (hbelow old hold).enrichRow (hok old hold) (hfill closes hcloses old hold)

/-- A close that comes in under a mark is what the reader sees next. -/
theorem fillsAbove_of_notBelow {db : Db} (hok : ∀ r ∈ stored db, RowOk r)
    (pre : List NightlyEvent) {e : NightlyEvent}
    (hbelow : ∀ r ∈ stored (nightlyStep cal bsPrice db e), NotBelow r) : FillsAbove pre db e := by
  cases e with
  | book e => trivial
  | enrich d reads =>
    intro closes hcloses r hr hdate heod hopen
    have hmark := (hok r hr).mark_ne_none heod
    cases hclose : closeFor closes r with
    | none => exact markBelowIntrinsic_withClose_none r
    | some c =>
      have hsel : toEnrich d r = true := by simp [toEnrich, hdate, hopen]
      obtain ⟨bounds, heq⟩ := stored_enrich_of_closes cal bsPrice
        (List.ne_nil_of_mem (List.mem_filter.2 ⟨hr, hsel⟩)) hcloses
      generalize hv : enrichValues bsPrice reads closes bounds d r = v
      have hcloseV : v.vendor.underlyingClose = some c := by
        rw [← hv, underlyingClose_enrichValues, hclose]
      have hany : v.any = true := by simp [EnrichValues.any, hcloseV]
      have hrow : enrichRow d (enrichValues bsPrice reads closes bounds d) r = v.fill r := by
        rw [enrichRow, hv, if_pos ⟨hsel, hany⟩]
      have hstored : v.fill r ∈ stored (nightlyStep cal bsPrice db (.enrich d reads)) := by
        rw [heq, ← hrow]
        exact List.mem_map_of_mem hr
      have hnot := hbelow _ hstored (eodMarked_of_sameMark (sameMark_fill hmark v) ▸ heod)
      rwa [markBelowIntrinsic_fill hmark, hopen, Option.none_or, hcloseV] at hnot

/-! ## Runs -/

theorem rowOk_run (evs : List NightlyEvent) :
    ∀ r ∈ stored (Runs.run (nightlyStep cal bsPrice) Db.empty evs), RowOk r := by
  induction evs using List.reverseRecOn with
  | nil => simp [stored, Db.empty]
  | append_singleton evs e ih =>
    rw [Runs.run_snoc]
    exact rowOk_step cal bsPrice ih e

/-- A mark stays with its source through every later run. -/
theorem kept_along {pre : List NightlyEvent} {r : PositionSnapshotRow}
    (hr : r ∈ stored (Runs.run (nightlyStep cal bsPrice) Db.empty pre))
    (hmark : r.row.mark ≠ none) (mid : List NightlyEvent) :
    ∃ r' ∈ stored (Runs.run (nightlyStep cal bsPrice) Db.empty (pre ++ mid)), SameMark r r' := by
  induction mid using List.reverseRecOn with
  | nil =>
    rw [List.append_nil]
    exact ⟨r, hr, .rfl⟩
  | append_singleton mid e ih =>
    obtain ⟨r', hr', hsame⟩ := ih
    obtain ⟨r'', hr'', hsame'⟩ := kept_step cal bsPrice hr' (hsame.2.1 ▸ hmark) e
    rw [← List.append_assoc, Runs.run_snoc]
    exact ⟨r'', hr'', hsame.trans hsame'⟩

theorem notBelow_run {evs : List NightlyEvent}
    (h : Runs.Along (nightlyStep cal bsPrice) Db.empty FillsAbove evs) :
    ∀ r ∈ stored (Runs.run (nightlyStep cal bsPrice) Db.empty evs), NotBelow r :=
  Runs.invariant (fun _ db => ∀ r ∈ stored db, NotBelow r) (by simp [stored, Db.empty])
    (fun pre e hfill hbelow =>
      notBelow_step cal bsPrice (rowOk_run cal bsPrice pre) hbelow hfill) h

end Steps

/-- The marks of a run are consistent exactly when no close comes in at which a mark that enrich
stored without it is under intrinsic. -/
theorem markLaw_iff (cal : MarketCalendar) (bsPrice : BsPrice) (evs : List NightlyEvent) :
    MarkLaw cal bsPrice evs ↔
      Runs.Along (nightlyStep cal bsPrice) Db.empty FillsAbove evs := by
  constructor
  · rintro law pre e post rfl
    have hprefix : pre ++ [e] <+: pre ++ e :: post := ⟨post, by simp⟩
    apply fillsAbove_of_notBelow cal bsPrice (rowOk_run cal bsPrice pre) pre
    have hbelow := law.notBelow _ hprefix
    rwa [Runs.run_snoc] at hbelow
  · intro h
    refine ⟨fun pre _ r hr => (rowOk_run cal bsPrice pre r hr).sourced,
      fun pre mid _ r hr hmark => kept_along cal bsPrice hr hmark mid, ?_⟩
    rintro pre ⟨post, rfl⟩
    exact notBelow_run cal bsPrice h.of_append

/-! ## A close that comes in later -/

/-- A full read of an account that holds one call with the strike 280. -/
def sampleCallRead : AccountItem :=
  { sampleFullRead with
    positions := .list [some
      { symbol := some "AAPL", secType := some "OPT", sec_type := none, exchange := none
        currency := some "USD", position := .int 1, avgCost := .float (.fin 9000)
        avg_cost := .null, lastTradeDateOrContractMonth := some "20270115", expiry := none
        strike := .float (.fin 280), right := some "C" }] }

/-- Its attribution, without a live quote. -/
def sampleCallAttribution : AttributionRow :=
  { sampleAttribution with
    contractKey := some "AAPL|OPT|20270115|280.0|C"
    secType := some "OPT"
    expiry := some "20270115"
    strike := .number (.fin 280)
    optionRight := some "C"
    positionQty := .number (.fin 1)
    openQtyEst := .number (.fin 1) }

/-- The call's last trade was at 70. -/
def sampleChain : List ChainRow :=
  [{ optionTicker := "O:AAPL270115C00280000", delta := .number (.fin (1 / 2))
     gamma := .none, vega := .none, theta := .none, iv := .none
     dayClose := .number (.fin 70), snapshotTs := none, lastTradeTs := none }]

/-- The option chain is there, the underlying's close is not. -/
def sampleChainOnly : EnrichReads where
  closes _ _ := none
  optionRows _ _ _ := some sampleChain
  sessionBounds _ := none

/-- The underlying closed at 370, that is 90 over the strike. -/
def sampleWithClose : EnrichReads where
  closes _ _ := some [("AAPL", some
    { barTime := .number (.fin sampleSession.midnightUtc), close := .number (.fin 370) })]
  optionRows _ _ _ := some sampleChain
  sessionBounds _ := none

/-- The last trade is stored while the underlying's close is not known, the close comes in with
the next run, and the mark is read back as under intrinsic. -/
theorem not_markLaw_lateClose :
    ¬ MarkLaw sampleCalendar (fun _ _ _ _ _ _ => none)
        [.book (.sync sampleAfterClose (some [sampleCallRead])),
          .book (.capture sampleSession [sampleCallAttribution]),
          .enrich sampleSession sampleChainOnly, .enrich sampleSession sampleWithClose] := by
  intro law
  have hbelow := law.notBelow _ List.prefix_rfl
  have hrow : ∃ r ∈ stored (Runs.run (nightlyStep sampleCalendar fun _ _ _ _ _ _ => none) Db.empty
      [.book (.sync sampleAfterClose (some [sampleCallRead])),
        .book (.capture sampleSession [sampleCallAttribution]),
        .enrich sampleSession sampleChainOnly, .enrich sampleSession sampleWithClose]),
      eodMarked r = true ∧ markBelowIntrinsic r = some true := by decide +kernel
  obtain ⟨r, hr, heod, hmark⟩ := hrow
  exact hbelow r hr heod hmark

end Portfolio.Snapshot
