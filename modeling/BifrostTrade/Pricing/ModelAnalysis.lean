import BifrostTrade.Pricing.AccountStress
import BifrostTrade.Pricing.PositionGroups

/-!
# The analysis of an account

Delta and stress in `compute_model_analysis` of `portfolio/model/core.py`: each underlying by
itself, and their sums.  An underlying without a spot has neither, and both sums leave it out; the
stress table tells which volatilities it lacks, the delta does not tell what it lacks
(`model_analysis`).
-/

noncomputable section

open Py Rounding
open Dict (setItems)
open Portfolio (RiskPosition Right)

namespace Pricing

section Code

variable {F : Type} [Field F] [LinearOrder F] [FloorRing F] (m : MathFunctions F)
  (today : Date) (r : F) (close : String → Option ℚ) (rows : List QuotedPosition)

/-- The mid of an option row of a symbol, under its key. -/
def quotedMid (symbol : String) (row : QuotedPosition) :
    Option ((ℚ × Right × Option Date) × F) := do
  if cleanUpper row.secType ≠ "OPT" ∨ cleanUpper row.symbol ≠ symbol then none
  else
    let strike ← row.strike
    let right ← readRight row.optionRight
    let mid ← bestPrice row
    return ((strike, right, parseExpiry row.expiry), (mid : F))

/-- `per_underlying_mids` of a symbol. -/
def midPrices (symbol : String) : MidPrices F := setItems [] (rows.filterMap (quotedMid symbol))

/-- A group with its spot, for want of one its last close. -/
def underlyingBook (e : String × Group) : Book F where
  optPositions := e.2.optPositions
  stockQty := e.2.stockQty
  stockAvgCost := e.2.stockAvgCost
  spot := (e.2.spot.or (close e.1)).map fun x => (x : F)
  farthestExpiry := e.2.farthestExpiry
  optMidPrices := midPrices rows e.1

/-- What the analysis says of an underlying. -/
structure UnderlyingEntry (F : Type) where
  symbol : String
  greeks : GroupGreeks F
  stress : Option (StressTable F)

/-- The delta and the stress of a symbol that is held. -/
def underlyingEntry (e : String × Group) : Except MathError (UnderlyingEntry F) := do
  let greeks ← computeGreeksForGroup m today r (underlyingBook close rows e)
  let stress ← stressMatrix m today r (underlyingBook close rows e)
  return ⟨e.1, greeks, stress⟩

/-- The delta of a group, where it has a spot. -/
def GroupGreeks.delta : GroupGreeks F → Option F
  | .noSpot => none
  | .priced delta _ _ _ => some delta

/-- The delta of a group in dollars, where it has a spot. -/
def GroupGreeks.deltaDollars : GroupGreeks F → Option F
  | .noSpot => none
  | .priced _ deltaDollars _ _ => some deltaDollars

/-- The deltas of the underlyings added up. -/
def deltaSum (entries : List (UnderlyingEntry F)) : F :=
  (entries.map fun e => e.greeks.delta).reduceOption.sum

/-- The sum of the delta dollars that are known. -/
def deltaDollarsSum (entries : List (UnderlyingEntry F)) : F :=
  (entries.map fun e => e.greeks.deltaDollars).reduceOption.sum

/-- `total_delta` and `total_delta_dollars`. -/
def totalDelta (entries : List (UnderlyingEntry F)) : Option (F × F) :=
  if (∀ e ∈ entries, e.greeks.delta ≠ none) ∨ deltaSum entries ≠ 0 then
    some (places 4 (deltaSum entries), places 2 (deltaDollarsSum entries))
  else none

/-- What `compute_model_analysis` answers of delta and stress. -/
structure ModelAnalysis (F : Type) where
  perUnderlying : List (UnderlyingEntry F)
  totalDelta : Option (F × F)
  accountStress : Option (AccountStress F)

/-- The underlyings with the sums over them. -/
def rollUp (entries : List (UnderlyingEntry F)) : ModelAnalysis F :=
  ⟨entries, totalDelta entries, aggregateStress (entries.map UnderlyingEntry.stress)⟩

/-- `compute_model_analysis`, over the rows and the closes it reads. -/
def computeModelAnalysis : Except MathError (ModelAnalysis F) := do
  let entries ← (sortedBy Prod.fst (groupPositions rows)).mapM
    (underlyingEntry m today r close rows)
  return rollUp entries

end Code

/-! ## An underlying -/

/-- What the account needs of an underlying. -/
structure EntryOf (symbol : String) (e : UnderlyingEntry ℝ) : Prop where
  named : e.symbol = symbol
  alike : e.greeks.delta = none ↔ e.stress = none
  delta : ∀ d ∈ e.greeks.delta, IsPlaces 4 d
  deltaDollars : ∀ d ∈ e.greeks.deltaDollars, IsPlaces 2 d
  stress : ∀ t ∈ e.stress, TableRows t

variable (today : Date) (r : ℝ)

theorem computeGreeks_places (b : Book ℝ) :
    ∃ greeks, computeGreeksForGroup realMath today r b = .ok greeks ∧
      (greeks.delta = none ↔ ∀ spot ∈ b.spot, spot ≤ 0) ∧
      (∀ d ∈ greeks.delta, IsPlaces 4 d) ∧ ∀ d ∈ greeks.deltaDollars, IsPlaces 2 d := by
  by_cases h : ∀ spot ∈ b.spot, spot ≤ 0
  · refine ⟨.noSpot, ?_, iff_of_true rfl h, fun d hd => absurd hd (Option.not_mem_none d),
      fun d hd => absurd hd (Option.not_mem_none d)⟩
    rw [computeGreeksForGroup]
    cases hb : b.spot with
    | none => rfl
    | some spot => exact if_pos (h spot hb)
  · simp only [not_forall, not_le] at h
    obtain ⟨spot, hb, hspot⟩ := h
    obtain ⟨legs, hpriced, -, hsound, -⟩ := stressMatrix_ok today r b hb hspot
    obtain ⟨perLeg, hgreeks⟩ := computeGreeks_ok today r b hb hspot hpriced hsound
    refine ⟨_, hgreeks, iff_of_false (Option.some_ne_none _) fun h => hspot.not_ge (h spot hb),
      fun d hd => ?_, fun d hd => ?_⟩
    · obtain rfl := Option.some.inj hd
      exact isPlaces_places 4 _
    · obtain rfl := Option.some.inj hd
      exact isPlaces_places 2 _

theorem underlyingEntry_ok (close : String → Option ℚ) (rows : List QuotedPosition)
    (e : String × Group) :
    ∃ entry, underlyingEntry realMath today r close rows e = .ok entry ∧ EntryOf e.1 entry := by
  obtain ⟨greeks, hgreeks, hdelta, hplaces, hdollars⟩ :=
    computeGreeks_places today r (underlyingBook close rows e)
  obtain ⟨t, ht, hnone, hrows⟩ := stressMatrix_rows today r (underlyingBook close rows e)
  refine ⟨⟨e.1, greeks, t⟩, ?_, rfl, hdelta.trans hnone.symm, hplaces, hdollars, hrows⟩
  rw [underlyingEntry, hgreeks, ht]
  rfl

/-! ## The account -/

/-- What the analysis says of the rows. -/
structure ModelLaw (rows : List QuotedPosition) (a : ModelAnalysis ℝ) : Prop where
  /-- An entry for each symbol that is held, in their order. -/
  sorted : (a.perUnderlying.map UnderlyingEntry.symbol).Pairwise (· < ·)
  symbols : ∀ symbol, symbol ∈ a.perUnderlying.map UnderlyingEntry.symbol ↔
    ∃ h ∈ rows.filterMap held, h.symbol = symbol
  /-- The underlyings without a delta are those without a stress table. -/
  alike : ∀ e ∈ a.perUnderlying, e.greeks.delta = none ↔ e.stress = none
  /-- Nothing is lost by rounding the sums. -/
  delta : ∀ d ∈ a.totalDelta, d = (deltaSum a.perUnderlying, deltaDollarsSum a.perUnderlying)
  /-- The total is withheld only where what is known adds up to nothing. -/
  withheld : a.totalDelta = none ↔
    (∃ e ∈ a.perUnderlying, e.greeks.delta = none) ∧ deltaSum a.perUnderlying = 0
  unstressed : a.accountStress = none ↔ ∀ e ∈ a.perUnderlying, e.stress = none
  stressed : ∀ t ∈ a.accountStress,
    AccountRows (a.perUnderlying.map UnderlyingEntry.stress).reduceOption t

section Sums

variable {entries : List (UnderlyingEntry ℝ)}

theorem totalDelta_exact (h : ∀ e ∈ entries, EntryOf e.symbol e) :
    ∀ d ∈ totalDelta entries, d = (deltaSum entries, deltaDollarsSum entries) := by
  intro d hd
  rw [totalDelta] at hd
  split at hd
  · obtain rfl := Option.some.inj hd
    have hdelta : IsPlaces 4 (deltaSum entries) := by
      refine IsPlaces.sum fun x hx => ?_
      obtain ⟨e, he, hex⟩ := List.mem_map.1 (List.reduceOption_mem_iff.1 hx)
      exact (h e he).delta x hex
    have hdollars : IsPlaces 2 (deltaDollarsSum entries) := by
      refine IsPlaces.sum fun x hx => ?_
      obtain ⟨e, he, hex⟩ := List.mem_map.1 (List.reduceOption_mem_iff.1 hx)
      exact (h e he).deltaDollars x hex
    rw [hdelta.places_eq, hdollars.places_eq]
  · exact absurd hd (Option.not_mem_none d)

theorem totalDelta_eq_none : totalDelta entries = none ↔
    (∃ e ∈ entries, e.greeks.delta = none) ∧ deltaSum entries = 0 := by
  rw [totalDelta]
  split
  · rename_i h
    refine iff_of_false (Option.some_ne_none _) fun hnone => ?_
    obtain ⟨⟨e, he, hdelta⟩, hzero⟩ := hnone
    rcases h with h | h
    · exact h e he hdelta
    · exact h hzero
  · rename_i h
    rw [not_or, not_not] at h
    refine iff_of_true rfl ⟨?_, h.2⟩
    by_contra hall
    exact h.1 fun e he hdelta => hall ⟨e, he, hdelta⟩

theorem accountStress_law (h : ∀ e ∈ entries, EntryOf e.symbol e) :
    (aggregateStress (entries.map UnderlyingEntry.stress) = none ↔
      ∀ e ∈ entries, e.stress = none) ∧
    ∀ t ∈ aggregateStress (entries.map UnderlyingEntry.stress),
      AccountRows (entries.map UnderlyingEntry.stress).reduceOption t := by
  have htables : ∀ t ∈ (entries.map UnderlyingEntry.stress).reduceOption, TableRows t := by
    intro t ht
    obtain ⟨e, he, het⟩ := List.mem_map.1 (List.reduceOption_mem_iff.1 ht)
    exact (h e he).stress t het
  obtain ⟨hagg, hlaw⟩ := aggregateStress_law htables
  rw [List.forall_mem_map] at hagg
  exact ⟨hagg, hlaw⟩

end Sums

/-- **The account is the sum of its underlyings.**  The analysis never fails; it has an entry for
each symbol held; the total delta and the stress table are the exact sums over the underlyings with
a spot, and only for the delta is nothing said of the others. -/
theorem model_analysis (close : String → Option ℚ) (rows : List QuotedPosition) :
    ∃ a, computeModelAnalysis realMath today r close rows = .ok a ∧ ModelLaw rows a := by
  choose g hg hentry using underlyingEntry_ok today r close rows
  have hperm := (sortedBy_perm Prod.fst (groupPositions rows)).map Prod.fst
  have hnodup : ((sortedBy Prod.fst (groupPositions rows)).map Prod.fst).Nodup :=
    hperm.nodup_iff.2 (keys_groupPositions rows ▸ firstSeen_nodup _)
  have hsymbols : ((sortedBy Prod.fst (groupPositions rows)).map g).map UnderlyingEntry.symbol =
      (sortedBy Prod.fst (groupPositions rows)).map Prod.fst := by
    rw [List.map_map]
    exact List.map_congr_left fun e _ => (hentry e).named
  have hentries : ∀ e ∈ (sortedBy Prod.fst (groupPositions rows)).map g, EntryOf e.symbol e := by
    intro e he
    obtain ⟨group, -, rfl⟩ := List.mem_map.1 he
    rw [(hentry group).named]
    exact hentry group
  obtain ⟨hunstressed, hstressed⟩ := accountStress_law hentries
  have hrun : computeModelAnalysis realMath today r close rows =
      .ok (rollUp ((sortedBy Prod.fst (groupPositions rows)).map g)) := by
    rw [computeModelAnalysis, mapM_ok fun e _ => hg e]
    rfl
  refine ⟨_, hrun, ?_, ?_, fun e he => (hentries e he).alike, totalDelta_exact hentries,
    totalDelta_eq_none, hunstressed, hstressed⟩
  · rw [rollUp, hsymbols, List.pairwise_map]
    have hle := sortedBy_pairwise Prod.fst (groupPositions rows)
    refine (hle.and (List.pairwise_map.1 hnodup)).imp ?_
    rintro e e' ⟨hle, hne⟩
    exact lt_of_le_of_ne hle hne
  · intro symbol
    rw [rollUp, hsymbols, hperm.mem_iff, keys_groupPositions, mem_firstSeen, List.mem_map]

end Pricing

end
