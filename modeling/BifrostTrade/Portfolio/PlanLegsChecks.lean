import BifrostTrade.Portfolio.PlanLegs

/-!
# The checks of a plan leg

A leg is accepted when no rule refuses it, and converts when every conversion that its checks reach
runs: `str` of its texts, `int` of its ratio and `float` of its strike and its mid.  The checks pass
exactly when the leg is accepted (`exists_reads_iff`) and raise nothing else exactly when what they
reach converts (`checkLeg_clean_iff`).
-/

namespace Portfolio.PlanLegs

open Py

variable (inner : Json.Value → Except Raised (List ℕ))

/-! ## What the checks reach -/

/-- `str` writes the value. -/
def Writes (value : Json.Value) : Prop := ∃ s, strOf inner value = .ok s

/-- `str(value or "")` is written. -/
def TextConverts (value : Json.Value) : Prop := value.truthy = true → Writes inner value

/-- The value spells a word after its case is changed. -/
def SpellsWord (recase : String → String) (value : Json.Value) (word : String) : Prop :=
  ∃ s, strippedOrEmpty inner value = .ok s ∧ recase (pointsText s) = word

/-- The value is missing or a text of which this is left. -/
def GivesText (value : Json.Value) (s : Option (List ℕ)) : Prop := givenText inner value = .ok s

/-- `float(value)` does not raise, or there is no value. -/
def NumberConverts (value : Json.Value) : Prop :=
  isNull value = true ∨ ∃ x, floatOf value = .ok x

/-- The ratio as a whole number; one where it is missing. -/
def IsRatio (value : Json.Value) (n : ℤ) : Prop := intOf (orOne value) = .ok n

section Leg

variable (members : Members)

/-- The side is one of the two. -/
def SideOk : Prop := ∃ w ∈ sides, SpellsWord inner lower (Json.field members "side") w

/-- The security type is one of the two. -/
def SecTypeOk : Prop := ∃ w ∈ secTypes, SpellsWord inner upper (Json.field members "sec_type") w

/-- The right is one of the two, or not there. -/
def RightOk : Prop :=
  ∃ s, GivesText inner (Json.field members "right") s ∧ ∀ r ∈ s, upper (pointsText r) ∈ rights

/-- An option leg has its right, strike and expiry, and an expiry is a date. -/
def Complete : Prop :=
  ∃ expiry, GivesText inner (Json.field members "expiry") expiry ∧
    (SpellsWord inner upper (Json.field members "sec_type") "OPT" →
      ¬ GivesText inner (Json.field members "right") none ∧
      isNull (Json.field members "strike") = false ∧ expiry ≠ none) ∧
    ∀ e ∈ expiry, isCalendar e = true

/-- The ratio is an integer of one or more. -/
def RatioOk : Prop := ∃ n, IsRatio (Json.field members "ratio") n ∧ 1 ≤ n

/-- No rule refuses the leg. -/
structure Accepted : Prop where
  side : SideOk inner members
  secType : SecTypeOk inner members
  right : RightOk inner members
  complete : Complete inner members
  ratio : RatioOk members

/-- Every conversion that is reached runs. -/
structure LegConverts : Prop where
  side : TextConverts inner (Json.field members "side")
  secType : SideOk inner members → TextConverts inner (Json.field members "sec_type")
  right : SideOk inner members → SecTypeOk inner members → Writes inner (Json.field members "right")
  expiry : SideOk inner members → SecTypeOk inner members → RightOk inner members →
    Writes inner (Json.field members "expiry")
  ratio : SideOk inner members → SecTypeOk inner members → RightOk inner members →
    Complete inner members → ∀ x, Json.field members "ratio" = .float x → x.isInf = false
  strike : Accepted inner members → NumberConverts (Json.field members "strike")
  contractKey : Accepted inner members → TextConverts inner (Json.field members "contract_key")
  midAtPlan : Accepted inner members → NumberConverts (Json.field members "mid_at_plan")
  quoteAsof : Accepted inner members → TextConverts inner (Json.field members "quote_asof")

end Leg

/-! ## The fields -/

theorem strippedOrEmpty_ok_iff {value : Json.Value} :
    (∃ s, strippedOrEmpty inner value = .ok s) ↔ TextConverts inner value := by
  unfold strippedOrEmpty TextConverts Writes
  by_cases htruthy : value.truthy = true
  · rw [if_pos htruthy]
    cases strOf inner value <;> simp [Except.map, htruthy]
  · rw [if_neg htruthy]
    simp [htruthy]

theorem givenText_ok_iff {value : Json.Value} :
    (∃ s, givenText inner value = .ok s) ↔ Writes inner value := by
  unfold givenText Writes
  split
  · simp [strOf]
  · simp [strOf]
  · cases strOf inner value <;> simp [Except.map]

theorem oneOf_clean_iff {options : List String} {recase : String → String} {reason : String}
    {value : Json.Value} :
    Clean (oneOf inner options recase reason value) ↔ TextConverts inner value := by
  rw [oneOf, clean_bind_iff, clean_unguarded_iff, strippedOrEmpty_ok_iff]
  refine ⟨fun h => h.1, fun h => ⟨h, fun s _ => ?_⟩⟩
  rw [clean_if_refused_iff]
  exact fun _ => clean_ok _

theorem oneOf_ok_iff {options : List String} {recase : String → String} {reason : String}
    {value : Json.Value} {word : String} :
    oneOf inner options recase reason value = .ok word ↔
      SpellsWord inner recase value word ∧ word ∈ options := by
  rw [oneOf, bind_ok_iff]
  simp only [unguarded_eq_ok_iff, if_refused_eq_ok_iff, Except.ok.injEq]
  constructor
  · rintro ⟨s, hs, hmem, rfl⟩
    exact ⟨⟨s, hs, rfl⟩, not_not.1 hmem⟩
  · rintro ⟨⟨s, hs, rfl⟩, hmem⟩
    exact ⟨s, hs, not_not.2 hmem, rfl⟩

theorem rightOf_clean_iff {reason : String} {value : Json.Value} :
    Clean (rightOf inner reason value) ↔ Writes inner value := by
  rw [rightOf, clean_bind_iff, clean_unguarded_iff, givenText_ok_iff]
  refine ⟨fun h => h.1, fun h => ⟨h, fun s _ => ?_⟩⟩
  dsimp only
  rw [clean_if_refused_iff]
  exact fun _ => clean_ok _

theorem rightOf_ok_iff {reason : String} {value : Json.Value} {right : Option String} :
    rightOf inner reason value = .ok right ↔
      ∃ s, GivesText inner value s ∧ right = s.map (fun r => upper (pointsText r)) ∧
        ∀ r ∈ right, r ∈ rights := by
  rw [rightOf, bind_ok_iff]
  simp only [unguarded_eq_ok_iff, if_refused_eq_ok_iff, Except.ok.injEq, not_exists, not_and,
    not_not]
  constructor
  · rintro ⟨s, hs, hmem, rfl⟩
    exact ⟨s, hs, rfl, hmem⟩
  · rintro ⟨s, hs, rfl, hmem⟩
    exact ⟨s, hs, hmem, rfl⟩

theorem ratioOf_ok_iff {reason : String} {value : Json.Value} {n : ℤ} :
    ratioOf reason value = .ok n ↔ IsRatio value n := by
  unfold ratioOf IsRatio
  cases intOf (orOne value) with
  | ok m => simp
  | error e => cases e <;> simp

/-- Only an infinite float overflows. -/
theorem intOf_overflow_iff {value : Json.Value} :
    intOf value = .error .overflowError ↔ ∃ x, value = .float x ∧ x.isInf = true := by
  cases value with
  | float x => cases x <;> simp [intOf, Double.toInt, Double.isInf]
  | text points =>
    rw [intOf, intOfText]
    split
    · simp
    · cases parseInt (pointsText points) <;> simp [orValueError]
  | _ => simp [intOf]

theorem ratioOf_clean_iff {reason : String} {value : Json.Value} :
    Clean (ratioOf reason value) ↔ ∀ x, value = .float x → x.isInf = false := by
  have hsplit : Clean (ratioOf reason value) ↔ intOf (orOne value) ≠ .error .overflowError := by
    unfold ratioOf
    cases intOf (orOne value) with
    | ok n => simp
    | error e => cases e <;> simp
  have hfloat : ∀ x, orOne value = .float x ↔ value = .float x := by
    intro x
    cases value <;> simp [orOne]
  rw [hsplit, Ne, intOf_overflow_iff]
  simp [hfloat]

/-! ## The checks of a leg -/

section Leg

variable (members : Members)

/-- What is read where no rule refuses. -/
structure Reads (c : Checked) : Prop where
  side : SpellsWord inner lower (Json.field members "side") c.side
  side_mem : c.side ∈ sides
  secType : SpellsWord inner upper (Json.field members "sec_type") c.secType
  secType_mem : c.secType ∈ secTypes
  right : ∃ s, GivesText inner (Json.field members "right") s ∧
    c.right = s.map (fun r => upper (pointsText r)) ∧ ∀ r ∈ c.right, r ∈ rights
  expiry : GivesText inner (Json.field members "expiry") c.expiry
  option : ¬ (c.secType = "OPT" ∧ (c.right = none ∨
    isNull (Json.field members "strike") = true ∨ c.expiry = none))
  calendar : ¬ ∃ e ∈ c.expiry, isCalendar e = false
  ratio : IsRatio (Json.field members "ratio") c.ratio
  ratio_pos : ¬ c.ratio < 1

theorem checkLeg_ok_iff {leg : String} {c : Checked} :
    checkLeg inner leg members = .ok c ↔ Reads inner members c := by
  rw [checkLeg, bind_ok_iff]
  simp only [bind_ok_iff, oneOf_ok_iff, rightOf_ok_iff, unguarded_eq_ok_iff,
    if_refused_eq_ok_iff, ratioOf_ok_iff, Except.ok.injEq]
  constructor
  · rintro ⟨side, ⟨hside, hsideMem⟩, secType, ⟨hsec, hsecMem⟩, right, hright, expiry, hexpiry,
      hoption, hcalendar, ratio, hratio, hpos, rfl⟩
    exact ⟨hside, hsideMem, hsec, hsecMem, hright, hexpiry, hoption, hcalendar, hratio, hpos⟩
  · rintro ⟨hside, hsideMem, hsec, hsecMem, hright, hexpiry, hoption, hcalendar, hratio, hpos⟩
    exact ⟨c.side, ⟨hside, hsideMem⟩, c.secType, ⟨hsec, hsecMem⟩, c.right, hright, c.expiry,
      hexpiry, hoption, hcalendar, c.ratio, hratio, hpos, rfl⟩

variable {inner members} in
/-- A value spells one word at most. -/
theorem SpellsWord.unique {recase : String → String} {value : Json.Value} {w w' : String}
    (h : SpellsWord inner recase value w) (h' : SpellsWord inner recase value w') : w = w' := by
  obtain ⟨s, hs, rfl⟩ := h
  obtain ⟨s', hs', rfl⟩ := h'
  rw [Except.ok.inj (hs.symm.trans hs')]

variable {inner members} in
theorem GivesText.unique {value : Json.Value} {s s' : Option (List ℕ)}
    (h : GivesText inner value s) (h' : GivesText inner value s') : s = s' :=
  Except.ok.inj (h.symm.trans h')

/-- On what was read before, a leg is complete when neither check of the source refuses. -/
theorem complete_iff {secType : String} {s expiry : Option (List ℕ)}
    (hsec : SpellsWord inner upper (Json.field members "sec_type") secType)
    (hright : GivesText inner (Json.field members "right") s)
    (hexpiry : GivesText inner (Json.field members "expiry") expiry) :
    Complete inner members ↔
      ¬ (secType = "OPT" ∧ (s.map (fun r => upper (pointsText r)) = none ∨
        isNull (Json.field members "strike") = true ∨ expiry = none)) ∧
      ¬ ∃ e ∈ expiry, isCalendar e = false := by
  constructor
  · rintro ⟨expiry', hexpiry', hoption, hcalendar⟩
    obtain rfl := hexpiry.unique hexpiry'
    constructor
    · rintro ⟨rfl, hmissing⟩
      obtain ⟨hgiven, hstrike, hexp⟩ := hoption hsec
      rcases hmissing with hnone | hnull | hnone
      · exact hgiven (by rw [GivesText, hright, Option.map_eq_none_iff.1 hnone])
      · rw [hstrike] at hnull
        cases hnull
      · exact hexp hnone
    · rintro ⟨e, he, hnot⟩
      rw [hcalendar e he] at hnot
      cases hnot
  · rintro ⟨hoption, hcalendar⟩
    refine ⟨expiry, hexpiry, fun hopt => ?_, fun e he => ?_⟩
    · have hnot := not_and.1 hoption (hsec.unique hopt)
      simp only [not_or, Bool.not_eq_true] at hnot
      refine ⟨fun hnone => hnot.1 ?_, hnot.2.1, hnot.2.2⟩
      rw [hright.unique hnone]
      rfl
    · by_contra hnot
      exact hcalendar ⟨e, he, by simpa using hnot⟩

/-- The leg passes the checks where no rule refuses it. -/
theorem exists_reads_iff : (∃ c, Reads inner members c) ↔ Accepted inner members := by
  constructor
  · rintro ⟨c, h⟩
    obtain ⟨s, hs, hright, hmem⟩ := h.right
    have hoption := h.option
    rw [hright] at hoption
    refine ⟨⟨c.side, h.side_mem, h.side⟩, ⟨c.secType, h.secType_mem, h.secType⟩, ⟨s, hs, ?_⟩,
      (complete_iff inner members h.secType hs h.expiry).2 ⟨hoption, h.calendar⟩,
      c.ratio, h.ratio, not_lt.1 h.ratio_pos⟩
    intro r hr
    exact hmem _ (by rw [hright, hr]; rfl)
  · rintro ⟨⟨side, hsideMem, hside⟩, ⟨secType, hsecMem, hsec⟩, ⟨s, hs, hmem⟩, hcomplete,
      ratio, hratio, hpos⟩
    have ⟨expiry, hexpiry, _⟩ := hcomplete
    obtain ⟨hoption, hcalendar⟩ := (complete_iff inner members hsec hs hexpiry).1 hcomplete
    refine ⟨⟨side, secType, s.map fun r => upper (pointsText r), expiry, ratio⟩, hside, hsideMem,
      hsec, hsecMem, ⟨s, hs, rfl, ?_⟩, hexpiry, hoption, hcalendar, hratio, not_lt.2 hpos⟩
    intro r hr
    obtain ⟨t, ht, rfl⟩ := Option.map_eq_some_iff.1 hr
    exact hmem t ht

/-- The checks of a leg are clean where the conversions that they reach run. -/
theorem checkLeg_clean_iff {leg : String} :
    Clean (checkLeg inner leg members) ↔
      TextConverts inner (Json.field members "side") ∧
      (SideOk inner members → TextConverts inner (Json.field members "sec_type")) ∧
      (SideOk inner members → SecTypeOk inner members →
        Writes inner (Json.field members "right")) ∧
      (SideOk inner members → SecTypeOk inner members → RightOk inner members →
        Writes inner (Json.field members "expiry")) ∧
      (SideOk inner members → SecTypeOk inner members → RightOk inner members →
        Complete inner members → ∀ x, Json.field members "ratio" = .float x → x.isInf = false) := by
  rw [checkLeg]
  simp only [clean_bind_iff, oneOf_clean_iff, oneOf_ok_iff, rightOf_clean_iff, rightOf_ok_iff,
    clean_unguarded_iff, unguarded_eq_ok_iff, givenText_ok_iff, clean_if_refused_iff,
    ratioOf_clean_iff, clean_ok, implies_true, and_true]
  constructor
  · rintro ⟨hside, h⟩
    refine ⟨hside, ?_, ?_, ?_, ?_⟩
    · rintro ⟨w, hw, hs⟩
      exact (h w ⟨hs, hw⟩).1
    · rintro ⟨w, hw, hs⟩ ⟨t, ht, hsec⟩
      exact ((h w ⟨hs, hw⟩).2 t ⟨hsec, ht⟩).1
    · rintro ⟨w, hw, hs⟩ ⟨t, ht, hsec⟩ ⟨s, hright, hmem⟩
      refine (((h w ⟨hs, hw⟩).2 t ⟨hsec, ht⟩).2 _ ⟨s, hright, rfl, ?_⟩).1
      simpa using hmem
    · rintro ⟨w, hw, hs⟩ ⟨t, ht, hsec⟩ ⟨s, hright, hmem⟩ hcomplete
      have hfields := hcomplete
      obtain ⟨expiry, hexpiry, -⟩ := hfields
      obtain ⟨hoption, hcalendar⟩ := (complete_iff inner members hsec hright hexpiry).1 hcomplete
      refine (((h w ⟨hs, hw⟩).2 t ⟨hsec, ht⟩).2 _ ⟨s, hright, rfl, ?_⟩).2 expiry hexpiry
        hoption hcalendar
      simpa using hmem
  · rintro ⟨hside, hsecType, hrightC, hexpiryC, hratio⟩
    refine ⟨hside, fun w hw => ?_⟩
    have hsideOk : SideOk inner members := ⟨w, hw.2, hw.1⟩
    refine ⟨hsecType hsideOk, fun t ht => ?_⟩
    have hsecOk : SecTypeOk inner members := ⟨t, ht.2, ht.1⟩
    refine ⟨hrightC hsideOk hsecOk, fun right hright => ?_⟩
    obtain ⟨s, hs, rfl, hmem⟩ := hright
    have hrightOk : RightOk inner members := ⟨s, hs, by simpa using hmem⟩
    refine ⟨hexpiryC hsideOk hsecOk hrightOk, fun expiry hexpiry hoption hcalendar => ?_⟩
    exact hratio hsideOk hsecOk hrightOk
      ((complete_iff inner members ht.1 hs hexpiry).2 ⟨hoption, hcalendar⟩)

end Leg

end Portfolio.PlanLegs
