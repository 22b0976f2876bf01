import BifrostTrade.Portfolio.PlanLegsChecks

/-!
# When plan legs are normalised or refused

A leg is refused by a rule, or its conversions run.  Those that are not guarded raise something
else, and a number that is not finite is stored.  The legs are normalised or refused exactly when
neither happens to a leg that is reached (`legsLaw_iff`); what is normalised is normalised already
(`normalizePlanLegs_canonical`).
-/

namespace Portfolio.PlanLegs

open Py
open Py.Iso (codes)

variable (inner : Json.Value → Except Raised (List ℕ))

/-! ## The law -/

/-- `json.dumps` writes the value, and as standard JSON: no NaN, no infinity. -/
inductive IsJson : Json.Value → Prop where
  | null : IsJson .null
  | bool (b : Bool) : IsJson (.bool b)
  | int {n : ℤ} (h : Printable n) : IsJson (.int n)
  | float {x : Double} (h : x.isFinite = true) : IsJson (.float x)
  | text (points : List ℕ) : IsJson (.text points)
  | array {items : List Json.Value} (h : ∀ v ∈ items, IsJson v) : IsJson (.array items)
  | object {members : List (List ℕ × Json.Value)} (h : ∀ m ∈ members, IsJson m.2) :
      IsJson (.object members)

/-- A leg with its words, dates and numbers in their sets. -/
structure WellFormed (l : Leg) : Prop where
  side : l.side ∈ sides
  secType : l.secType ∈ secTypes
  right : ∀ r ∈ l.right, r ∈ rights
  option : l.secType = "OPT" → l.right.isSome ∧ l.strike.isSome ∧ l.expiry.isSome
  strike : ∀ x ∈ l.strike, x.isFinite = true
  expiry : ∀ e ∈ l.expiry, isCalendar e = true
  ratio : 1 ≤ l.ratio
  midAtPlan : ∀ x ∈ l.midAtPlan, x.isFinite = true

/-- The legs are well formed, are JSON, and are their own normal form. -/
def Normalised (legs : List Leg) : Prop :=
  (∀ l ∈ legs, WellFormed l) ∧ IsJson (.array (legs.map Leg.json)) ∧
    normalizePlanLegs inner (.array (legs.map Leg.json)) = .ok legs

/-- The legs are normalised, or refused with `PlanRuleError`. -/
def LegsLaw (value : Json.Value) : Prop :=
  match normalizePlanLegs inner value with
  | .ok legs => Normalised inner legs
  | .error (.refused _) => True
  | .error (.raised _) => False

/-! ## When it holds -/

/-- The strike and the mid are finite, and the ratio can be written. -/
structure LegFinite (members : Members) : Prop where
  strike : ∀ x, floatOf (Json.field members "strike") = .ok x → x.isFinite = true
  midAtPlan : ∀ x, floatOf (Json.field members "mid_at_plan") = .ok x → x.isFinite = true
  ratio : ∀ n, IsRatio (Json.field members "ratio") n → Printable n

/-- What is given converts, where it is an object. -/
def RawConverts (raw : Json.Value) : Prop := ∀ members, raw = .object members →
  LegConverts inner members

/-- What is given is an object that no rule refuses. -/
def RawAccepted (raw : Json.Value) : Prop := ∃ members, raw = .object members ∧
  Accepted inner members

/-- What is given has finite numbers, where it is an object. -/
def RawFinite (raw : Json.Value) : Prop := ∀ members, raw = .object members → LegFinite members

/-- Every leg up to the first that is refused converts. -/
def LegsConvert : List Json.Value → Prop
  | [] => True
  | raw :: rest => RawConverts inner raw ∧ (RawAccepted inner raw → LegsConvert rest)

/-- No conversion raises, and where no leg is refused every number is finite. -/
def LegsSound (value : Json.Value) : Prop :=
  ∀ items, value = .array items → LegsConvert inner items ∧
    ((∀ raw ∈ items, RawAccepted inner raw) → ∀ raw ∈ items, RawFinite raw)

/-! ## The leg that is built -/

theorem optFloat_ok_iff {value : Json.Value} :
    (∃ x, optFloat value = .ok x) ↔ NumberConverts value := by
  unfold optFloat NumberConverts
  cases value with
  | null => simp [isNull]
  | _ => simp [isNull, exists_map_ok_iff]

/-- The number that is stored is the one the value converts to. -/
theorem optFloat_some_iff {value : Json.Value} {x : Double} :
    optFloat value = .ok (some x) ↔ floatOf value = .ok x := by
  unfold optFloat
  cases value with
  | null => simp [floatOf]
  | _ => simp [map_ok_iff]

theorem optFloat_eq_none {value : Json.Value} (h : optFloat value = .ok none) :
    isNull value = true := by
  unfold optFloat at h
  split at h
  · rfl
  · simp [map_ok_iff] at h

/-- The value that counts as true has a text. -/
theorem strOf_ne_nil {value : Json.Value} {s : List ℕ} (htruthy : value.truthy = true)
    (h : strOf inner value = .ok s) : s ≠ [] := by
  cases value with
  | null => cases htruthy
  | bool b =>
    obtain rfl := Except.ok.inj h
    cases b <;> simp [codes]
  | int n =>
    obtain ⟨t, ht, rfl⟩ := map_ok_iff.1 h
    rw [intText] at ht
    split at ht
    · obtain rfl := Except.ok.inj ht
      simpa [codes] using ne_empty_of_readFloat (readFloat_toString n)
    · cases ht
  | float x =>
    obtain rfl := Except.ok.inj h
    simpa [codes] using reprFloat_ne_empty x
  | text points =>
    obtain rfl := Except.ok.inj h
    simpa [Json.Value.truthy] using htruthy
  | array items =>
    obtain ⟨t, -, rfl⟩ := map_ok_iff.1 h
    simp
  | object members =>
    obtain ⟨t, -, rfl⟩ := map_ok_iff.1 h
    simp

theorem keyText_ok_iff {value : Json.Value} :
    (∃ k, keyText inner value = .ok k) ↔ TextConverts inner value := by
  rw [keyText, exists_map_ok_iff, strippedOrEmpty_ok_iff]

theorem quoteText_ok_iff {value : Json.Value} :
    (∃ q, quoteText inner value = .ok q) ↔ TextConverts inner value := by
  unfold quoteText TextConverts Writes
  by_cases htruthy : value.truthy = true
  · simp [htruthy, exists_map_ok_iff]
  · simp [htruthy]

section Leg

variable {members : Members}

/-- What the fields that were not checked convert to. -/
structure Builds (c : Checked) (members : Members) (l : Leg) : Prop where
  checked : (⟨l.side, l.secType, l.right, l.expiry, l.ratio⟩ : Checked) = c
  strike : optFloat (Json.field members "strike") = .ok l.strike
  contractKey : keyText inner (Json.field members "contract_key") = .ok l.contractKey
  midAtPlan : optFloat (Json.field members "mid_at_plan") = .ok l.midAtPlan
  quoteAsof : quoteText inner (Json.field members "quote_asof") = .ok l.quoteAsof

theorem buildLeg_ok_iff {c : Checked} {l : Leg} :
    buildLeg inner c members = .ok l ↔ Builds inner c members l := by
  rw [buildLeg, bind_ok_iff]
  simp only [bind_ok_iff]
  constructor
  · rintro ⟨strike, hstrike, key, hkey, mid, hmid, quote, hquote, h⟩
    obtain rfl := Except.ok.inj h
    exact ⟨rfl, hstrike, hkey, hmid, hquote⟩
  · rintro ⟨rfl, hstrike, hkey, hmid, hquote⟩
    exact ⟨l.strike, hstrike, l.contractKey, hkey, l.midAtPlan, hmid, l.quoteAsof, hquote, rfl⟩

/-- The leg is built where the rest converts. -/
theorem exists_builds_iff {c : Checked} : (∃ l, Builds inner c members l) ↔
    NumberConverts (Json.field members "strike") ∧
    TextConverts inner (Json.field members "contract_key") ∧
    NumberConverts (Json.field members "mid_at_plan") ∧
    TextConverts inner (Json.field members "quote_asof") := by
  rw [← optFloat_ok_iff, ← keyText_ok_iff, ← optFloat_ok_iff, ← quoteText_ok_iff]
  constructor
  · rintro ⟨l, h⟩
    exact ⟨⟨_, h.strike⟩, ⟨_, h.contractKey⟩, ⟨_, h.midAtPlan⟩, _, h.quoteAsof⟩
  · rintro ⟨⟨strike, hstrike⟩, ⟨key, hkey⟩, ⟨mid, hmid⟩, quote, hquote⟩
    exact ⟨⟨c.side, c.secType, c.right, strike, c.expiry, c.ratio, key, mid, quote⟩, rfl, hstrike,
      hkey, hmid, hquote⟩

theorem normalizeLeg_ok_iff {number : ℕ} {raw : Json.Value} {l : Leg} :
    normalizeLeg inner number raw = .ok l ↔ ∃ members, raw = .object members ∧
      ∃ c, Reads inner members c ∧ Builds inner c members l := by
  unfold normalizeLeg
  split
  · rename_i members
    rw [bind_ok_iff]
    simp only [checkLeg_ok_iff, unguarded_eq_ok_iff, buildLeg_ok_iff, Json.Value.object.injEq,
      exists_eq_left']
  · rename_i hnot
    simp only [reduceCtorEq, false_iff]
    rintro ⟨members, rfl, -⟩
    exact hnot members rfl

end Leg

/-- A turn of the loop raises nothing else where the leg converts. -/
theorem normalizeLeg_clean_iff {number : ℕ} {raw : Json.Value} :
    Clean (normalizeLeg inner number raw) ↔ RawConverts inner raw := by
  unfold normalizeLeg RawConverts
  split
  · rename_i members
    rw [clean_bind_iff, checkLeg_clean_iff]
    simp only [checkLeg_ok_iff, clean_unguarded_iff, buildLeg_ok_iff, exists_builds_iff,
      Json.Value.object.injEq, forall_eq']
    constructor
    · rintro ⟨⟨hside, hsecType, hright, hexpiry, hratio⟩, hbuild⟩
      have hrest : Accepted inner members → _ := fun haccepted =>
        ((exists_reads_iff inner members).2 haccepted).elim hbuild
      exact ⟨hside, hsecType, hright, hexpiry, hratio, fun h => (hrest h).1,
        fun h => (hrest h).2.1, fun h => (hrest h).2.2.1, fun h => (hrest h).2.2.2⟩
    · intro h
      refine ⟨⟨h.side, h.secType, h.right, h.expiry, h.ratio⟩, fun c hc => ?_⟩
      have haccepted := (exists_reads_iff inner members).1 ⟨c, hc⟩
      exact ⟨h.strike haccepted, h.contractKey haccepted, h.midAtPlan haccepted,
        h.quoteAsof haccepted⟩
  · rename_i hnot
    simp only [clean_refused, true_iff]
    exact fun members h => absurd h (hnot members)

theorem RawAccepted.of_passes {number : ℕ} {raw : Json.Value}
    (h : Passes (normalizeLeg inner number raw)) : RawAccepted inner raw := by
  obtain ⟨l, hl⟩ := h
  obtain ⟨members, rfl, c, hc, -⟩ := (normalizeLeg_ok_iff inner).1 hl
  exact ⟨members, rfl, (exists_reads_iff inner members).1 ⟨c, hc⟩⟩

theorem RawAccepted.passes {number : ℕ} {raw : Json.Value} (h : RawAccepted inner raw)
    (hconverts : RawConverts inner raw) : Passes (normalizeLeg inner number raw) := by
  obtain ⟨members, rfl, haccepted⟩ := h
  obtain ⟨c, hc⟩ := (exists_reads_iff inner members).2 haccepted
  have hconv := hconverts members rfl
  obtain ⟨l, hl⟩ := (exists_builds_iff inner (c := c)).2 ⟨hconv.strike haccepted,
    hconv.contractKey haccepted, hconv.midAtPlan haccepted, hconv.quoteAsof haccepted⟩
  exact ⟨l, (normalizeLeg_ok_iff inner).2 ⟨members, rfl, c, hc, hl⟩⟩

/-! ## Legs that are normal -/

/-- A leg that is its own normal form, whatever its numbers. -/
structure Canonical (l : Leg) : Prop where
  side : l.side ∈ sides
  secType : l.secType ∈ secTypes
  right : ∀ r ∈ l.right, r ∈ rights
  option : ¬ (l.secType = "OPT" ∧ (l.right = none ∨ l.strike = none ∨ l.expiry = none))
  expiry : ∀ e ∈ l.expiry, stripPoints e = e ∧ isCalendar e = true
  ratio : 1 ≤ l.ratio
  contractKey : ∀ k ∈ l.contractKey, stripPoints k = k ∧ k ≠ []
  quoteAsof : ∀ q ∈ l.quoteAsof, q ≠ []

section Normal

variable {l : Leg}

variable {inner} in
theorem GivesText.stripped {value : Json.Value} {s : List ℕ} (h : GivesText inner value (some s)) :
    stripPoints s = s := by
  unfold GivesText givenText at h
  split at h
  · cases h
  · cases h
  · obtain ⟨t, -, heq⟩ := map_ok_iff.1 h
    obtain rfl := Option.some.inj heq
    exact stripPoints_stripPoints t

theorem strippedOrEmpty_stripped {value : Json.Value} {s : List ℕ}
    (h : strippedOrEmpty inner value = .ok s) : stripPoints s = s := by
  unfold strippedOrEmpty at h
  split_ifs at h
  · obtain ⟨t, -, rfl⟩ := map_ok_iff.1 h
    exact stripPoints_stripPoints t
  · obtain rfl := Except.ok.inj h
    rfl

theorem keyText_some {value : Json.Value} {k : List ℕ} (h : keyText inner value = .ok (some k)) :
    stripPoints k = k ∧ k ≠ [] := by
  obtain ⟨t, ht, heq⟩ := map_ok_iff.1 h
  split_ifs at heq with hempty
  obtain rfl := Option.some.inj heq
  exact ⟨strippedOrEmpty_stripped inner ht, hempty⟩

theorem quoteText_some {value : Json.Value} {q : List ℕ}
    (h : quoteText inner value = .ok (some q)) : q ≠ [] := by
  unfold quoteText at h
  split_ifs at h with htruthy
  · obtain ⟨t, ht, heq⟩ := map_ok_iff.1 h
    obtain rfl := Option.some.inj heq
    exact strOf_ne_nil inner htruthy ht
  · cases h

/-- What is normalised is normal. -/
theorem Canonical.of_normalizeLeg {number : ℕ} {raw : Json.Value}
    (h : normalizeLeg inner number raw = .ok l) : Canonical l := by
  obtain ⟨members, rfl, c, hreads, hbuilds⟩ := (normalizeLeg_ok_iff inner).1 h
  obtain ⟨rfl, hstrike, hkey, -, hquote⟩ := hbuilds
  obtain ⟨-, hside, -, hsecType, ⟨s, -, -, hright⟩, hexpiry, hoption, hcalendar, -, hratio⟩ :=
    hreads
  refine ⟨hside, hsecType, hright, ?_, ?_, not_lt.1 hratio, ?_, ?_⟩
  · rintro ⟨hsec, hmissing⟩
    refine hoption ⟨hsec, hmissing.imp_right (Or.imp_left fun hnone => ?_)⟩
    exact optFloat_eq_none (by rw [hstrike, hnone])
  · intro e he
    have hgives : GivesText inner (Json.field members "expiry") (some e) := by
      rw [GivesText, hexpiry]
      exact congrArg Except.ok he
    exact ⟨hgives.stripped, by simpa using fun h => hcalendar ⟨e, he, h⟩⟩
  · intro k hk
    exact keyText_some inner (by rw [hkey, hk])
  · intro q hq
    exact quoteText_some inner (by rw [hquote, hq])

theorem spellsWord_text {recase : String → String} {points : List ℕ} (h : points ≠ []) :
    SpellsWord inner recase (.text points) (recase (pointsText (stripPoints points))) := by
  refine ⟨stripPoints points, ?_, rfl⟩
  rw [strippedOrEmpty, if_pos (by simpa [Json.Value.truthy] using h)]
  rfl

theorem givesText_optText {s : Option (List ℕ)} (h : ∀ t ∈ s, stripPoints t = t ∧ t ≠ []) :
    GivesText inner (optText s) s := by
  cases s with
  | none => rfl
  | some t =>
    obtain ⟨hstrip, hne⟩ := h t rfl
    cases t with
    | nil => exact absurd rfl hne
    | cons n t => exact congrArg (fun u => Except.ok (some u)) hstrip

theorem optFloat_optNumber (x : Option Double) : optFloat (optNumber x) = .ok x := by
  cases x <;> rfl

theorem keyText_optText {s : Option (List ℕ)} (h : ∀ t ∈ s, stripPoints t = t ∧ t ≠ []) :
    keyText inner (optText s) = .ok s := by
  cases s with
  | none => rfl
  | some t =>
    obtain ⟨hstrip, hne⟩ := h t rfl
    rw [keyText, strippedOrEmpty, if_pos (by simpa [Json.Value.truthy, optText] using hne)]
    simp [optText, strOf, Except.map, hstrip, hne]

theorem quoteText_optText {s : Option (List ℕ)} (h : ∀ t ∈ s, t ≠ []) :
    quoteText inner (optText s) = .ok s := by
  cases s with
  | none => rfl
  | some t =>
    rw [quoteText, if_pos (by simpa [Json.Value.truthy, optText] using h t rfl)]
    rfl

theorem sides_read : ∀ w ∈ sides, codes w.toList ≠ [] ∧
    lower (pointsText (stripPoints (codes w.toList))) = w := by
  decide

theorem secTypes_read : ∀ w ∈ secTypes, codes w.toList ≠ [] ∧
    upper (pointsText (stripPoints (codes w.toList))) = w := by
  decide

theorem rights_read : ∀ w ∈ rights, codes w.toList ≠ [] ∧
    stripPoints (codes w.toList) = codes w.toList ∧ upper (pointsText (codes w.toList)) = w := by
  decide

theorem isNull_optNumber (x : Option Double) : isNull (optNumber x) = true ↔ x = none := by
  cases x <;> simp [optNumber, isNull]

theorem not_isCalendar_nil : isCalendar [] = false := by decide

/-- The checks of a normal leg read it as it is. -/
theorem Canonical.reads (h : Canonical l) :
    Reads inner l.members ⟨l.side, l.secType, l.right, l.expiry, l.ratio⟩ := by
  obtain ⟨hside, hsecType, hright, hoption, hexpiry, hratio, -, -⟩ := h
  refine ⟨?_, hside, ?_, hsecType, ⟨l.right.map fun r => codes r.toList, ?_, ?_, hright⟩, ?_, ?_,
    ?_, rfl, not_lt.2 hratio⟩
  · have hspells : SpellsWord inner lower _ _ := spellsWord_text inner (sides_read _ hside).1
    rwa [(sides_read l.side hside).2] at hspells
  · have hspells : SpellsWord inner upper _ _ := spellsWord_text inner (secTypes_read _ hsecType).1
    rwa [(secTypes_read l.secType hsecType).2] at hspells
  · refine givesText_optText inner fun t ht => ?_
    obtain ⟨r, hr, rfl⟩ := Option.map_eq_some_iff.1 ht
    exact ⟨(rights_read r (hright r hr)).2.1, (rights_read r (hright r hr)).1⟩
  · cases hr : l.right with
    | none => rfl
    | some r => exact congrArg some (rights_read r (hright r hr)).2.2.symm
  · refine givesText_optText inner fun e he => ⟨(hexpiry e he).1, ?_⟩
    rintro rfl
    exact absurd (hexpiry [] he).2 (by rw [not_isCalendar_nil]; exact Bool.false_ne_true)
  · rintro ⟨hsec, hmissing⟩
    exact hoption ⟨hsec, hmissing.imp_right (Or.imp_left (isNull_optNumber l.strike).1)⟩
  · rintro ⟨e, he, hnot⟩
    rw [(hexpiry e he).2] at hnot
    cases hnot

/-- A normal leg is normalised to itself. -/
theorem Canonical.normalizeLeg (h : Canonical l) (number : ℕ) :
    normalizeLeg inner number l.json = .ok l :=
  (normalizeLeg_ok_iff inner).2 ⟨l.members, rfl, _, h.reads inner, rfl, optFloat_optNumber l.strike,
    keyText_optText inner h.contractKey, optFloat_optNumber l.midAtPlan,
    quoteText_optText inner h.quoteAsof⟩

/-! ## The numbers -/

/-- The numbers of a leg are finite and can be written. -/
structure FiniteNumbers (l : Leg) : Prop where
  strike : ∀ x ∈ l.strike, x.isFinite = true
  midAtPlan : ∀ x ∈ l.midAtPlan, x.isFinite = true
  ratio : Printable l.ratio

theorem Canonical.wellFormed (h : Canonical l) (hfinite : FiniteNumbers l) : WellFormed l := by
  refine ⟨h.side, h.secType, h.right, fun hopt => ?_, hfinite.strike, fun e he => (h.expiry e he).2,
    h.ratio, hfinite.midAtPlan⟩
  have hgiven := not_and.1 h.option hopt
  simp only [not_or] at hgiven
  exact ⟨Option.isSome_iff_ne_none.2 hgiven.1, Option.isSome_iff_ne_none.2 hgiven.2.1,
    Option.isSome_iff_ne_none.2 hgiven.2.2⟩

theorem isJson_optText (s : Option (List ℕ)) : IsJson (optText s) := by
  cases s with
  | none => exact .null
  | some t => exact .text t

theorem isJson_optNumber_iff {x : Option Double} :
    IsJson (optNumber x) ↔ ∀ y ∈ x, y.isFinite = true := by
  cases x with
  | none => exact ⟨fun _ y hy => by simp at hy, fun _ => .null⟩
  | some y =>
    constructor
    · rintro (_ | _ | _ | h) z hz
      obtain rfl := Option.some.inj hz
      exact h
    · exact fun h => .float (h y rfl)

theorem isJson_json_iff : IsJson l.json ↔ FiniteNumbers l := by
  constructor
  · rintro ⟨⟩
    rename_i h
    simp only [Leg.members, List.mem_cons, List.not_mem_nil, or_false, forall_eq_or_imp,
      forall_eq] at h
    obtain ⟨-, -, -, hstrike, -, hratio, -, hmid, -⟩ := h
    refine ⟨isJson_optNumber_iff.1 hstrike, isJson_optNumber_iff.1 hmid, ?_⟩
    cases hratio with
    | int h => exact h
  · intro h
    refine .object ?_
    simp only [Leg.members, List.mem_cons, List.not_mem_nil, or_false, forall_eq_or_imp, forall_eq]
    exact ⟨.text _, .text _, isJson_optText _, isJson_optNumber_iff.2 h.strike, isJson_optText _,
      .int h.ratio, isJson_optText _, isJson_optNumber_iff.2 h.midAtPlan, isJson_optText _⟩

/-- The numbers of the leg that is built are those its source converts to. -/
theorem rawFinite_iff {number : ℕ} {raw : Json.Value}
    (h : PlanLegs.normalizeLeg inner number raw = .ok l) : RawFinite raw ↔ FiniteNumbers l := by
  obtain ⟨members, rfl, c, hreads, hbuilds⟩ := (normalizeLeg_ok_iff inner).1 h
  obtain ⟨rfl, hstrike, -, hmid, -⟩ := hbuilds
  have hnumber : ∀ {key : String} {number : Option Double},
      optFloat (Json.field members key) = .ok number →
      ((∀ x, floatOf (Json.field members key) = .ok x → x.isFinite = true) ↔
        ∀ x ∈ number, x.isFinite = true) := by
    intro key number hkey
    simp only [← optFloat_some_iff, hkey, Except.ok.injEq, Option.mem_def]
  have hratio : ∀ n, IsRatio (Json.field members "ratio") n ↔ l.ratio = n := by
    intro n
    have hread : IsRatio (Json.field members "ratio") l.ratio := hreads.ratio
    unfold IsRatio at hread ⊢
    rw [hread, Except.ok.injEq]
  constructor
  · intro hraw
    have hfinite := hraw members rfl
    exact ⟨(hnumber hstrike).1 hfinite.strike, (hnumber hmid).1 hfinite.midAtPlan,
      hfinite.ratio _ ((hratio _).2 rfl)⟩
  · rintro hfinite members' hsame
    obtain rfl := Json.Value.object.inj hsame
    exact ⟨(hnumber hstrike).2 hfinite.strike, (hnumber hmid).2 hfinite.midAtPlan,
      fun n hn => (hratio n).1 hn ▸ hfinite.ratio⟩

end Normal

/-! ## The list -/

/-- The run over the legs is clean where they convert. -/
theorem cleanRun_iff (items : List Json.Value) (start : ℕ) :
    CleanRun (fun item => normalizeLeg inner item.2 item.1) (items.zipIdx start) ↔
      LegsConvert inner items := by
  induction items generalizing start with
  | nil => exact Iff.rfl
  | cons raw rest ih =>
    rw [List.zipIdx_cons, CleanRun, LegsConvert, normalizeLeg_clean_iff, ih]
    refine and_congr_right fun hconverts => imp_congr_left ?_
    exact ⟨RawAccepted.of_passes inner, fun h => h.passes inner hconverts⟩

/-- Where every leg is accepted, every leg is reached. -/
theorem LegsConvert.all {items : List Json.Value} (h : LegsConvert inner items)
    (haccepted : ∀ raw ∈ items, RawAccepted inner raw) : ∀ raw ∈ items, RawConverts inner raw := by
  induction items with
  | nil => exact fun raw hraw => absurd hraw List.not_mem_nil
  | cons raw rest ih =>
    rw [List.forall_mem_cons] at haccepted ⊢
    exact ⟨h.1, ih (h.2 haccepted.1) haccepted.2⟩

theorem zipIdx_forall₂ {items : List Json.Value} {start : ℕ} {legs : List Leg}
    (h : List.Forall₂ (fun item l => normalizeLeg inner item.2 item.1 = .ok l)
      (items.zipIdx start) legs) :
    List.Forall₂ (fun raw l => ∃ number, normalizeLeg inner number raw = .ok l) items legs := by
  rw [← List.zipIdx_map_fst start items, List.forall₂_map_left_iff]
  exact h.imp fun item l hl => ⟨item.2, hl⟩

/-- Normal legs are normalised to themselves. -/
theorem normalizePlanLegs_canonical {legs : List Leg} (h : ∀ l ∈ legs, Canonical l) :
    normalizePlanLegs inner (.array (legs.map Leg.json)) = .ok legs := by
  refine mapM_ok_iff.2 ?_
  generalize 1 = start
  induction legs generalizing start with
  | nil => exact .nil
  | cons l legs ih =>
    rw [List.map_cons, List.zipIdx_cons]
    exact .cons ((h l List.mem_cons_self).normalizeLeg inner start)
      (ih (fun l' hl' => h l' (List.mem_cons_of_mem l hl')) (start + 1))

/-- Legs that were normalised are, but for their numbers, what the law asks of them. -/
theorem normalised_iff {items : List Json.Value} {legs : List Leg}
    (h : List.Forall₂ (fun raw l => ∃ number, normalizeLeg inner number raw = .ok l) items legs) :
    Normalised inner legs ↔ ∀ raw ∈ items, RawFinite raw := by
  have hcanonical : ∀ l ∈ legs, Canonical l := fun l hl => by
    obtain ⟨raw, -, number, hraw⟩ := exists_left_of_forall₂ h l hl
    exact .of_normalizeLeg inner hraw
  constructor
  · rintro ⟨-, hjson, -⟩ raw hraw
    obtain ⟨l, hl, number, hok⟩ := exists_right_of_forall₂ h raw hraw
    cases hjson with
    | array hjson =>
      exact (rawFinite_iff inner hok).2 (isJson_json_iff.1 (hjson _ (List.mem_map_of_mem hl)))
  · intro hraws
    have hfinite : ∀ l ∈ legs, FiniteNumbers l := fun l hl => by
      obtain ⟨raw, hraw, number, hok⟩ := exists_left_of_forall₂ h l hl
      exact (rawFinite_iff inner hok).1 (hraws raw hraw)
    refine ⟨fun l hl => (hcanonical l hl).wellFormed (hfinite l hl), .array ?_,
      normalizePlanLegs_canonical inner hcanonical⟩
    intro v hv
    obtain ⟨l, hl, rfl⟩ := List.mem_map.1 hv
    exact isJson_json_iff.2 (hfinite l hl)

/-- The legs are normalised or refused exactly when every leg that is reached converts and the
numbers that are stored are finite. -/
theorem legsLaw_iff (value : Json.Value) : LegsLaw inner value ↔ LegsSound inner value := by
  unfold LegsLaw
  cases value with
  | array items =>
    have hclean : Clean (normalizePlanLegs inner (.array items)) ↔ LegsConvert inner items :=
      clean_mapM_iff.trans (cleanRun_iff inner items 1)
    have hsound : LegsSound inner (.array items) ↔ LegsConvert inner items ∧
        ((∀ raw ∈ items, RawAccepted inner raw) → ∀ raw ∈ items, RawFinite raw) := by
      simp [LegsSound]
    rw [hsound, ← hclean]
    cases hr : normalizePlanLegs inner (.array items) with
    | ok legs =>
      have hlegs := zipIdx_forall₂ inner (mapM_ok_iff.1 hr)
      have haccepted : ∀ raw ∈ items, RawAccepted inner raw := fun raw hraw => by
        obtain ⟨l, -, number, hok⟩ := exists_right_of_forall₂ hlegs raw hraw
        exact .of_passes inner ⟨l, hok⟩
      refine (normalised_iff inner hlegs).trans ?_
      exact ⟨fun h => ⟨clean_ok _, fun _ => h⟩, fun h => h.2 haccepted⟩
    | error e =>
      cases e with
      | raised e => simp
      | refused reason =>
        -- where every leg is accepted and converts, none is refused
        have hnot : ¬ ∀ raw ∈ items, RawAccepted inner raw := fun haccepted => by
          have hconverts := (hclean.1 (by rw [hr]; exact clean_refused reason)).all inner haccepted
          have hpasses : Passes (normalizePlanLegs inner (.array items)) :=
            passes_mapM_iff.2 fun item hitem =>
              have hraw := List.fst_mem_of_mem_zipIdx hitem
              (haccepted _ hraw).passes inner (hconverts _ hraw)
          rw [hr] at hpasses
          exact not_passes_error _ hpasses
        exact ⟨fun _ => ⟨clean_refused _, fun h => absurd h hnot⟩, fun _ => trivial⟩
  | null => simpa [normalizePlanLegs, LegsSound] using normalised_iff inner .nil
  | _ => simp [normalizePlanLegs, LegsSound]

/-- A leg of shares with a strike that is a word: the rules ask nothing of it. -/
def wordStrike : Json.Value :=
  .array [.object
    [(codes "side".toList, .text (codes "buy".toList)),
      (codes "sec_type".toList, .text (codes "STK".toList)),
      (codes "strike".toList, .text (codes "abc".toList))]]

/-- `float` of the word goes through as `ValueError`. -/
theorem not_legsLaw_wordStrike : ¬ LegsLaw (fun _ => .ok []) wordStrike := by
  have hraised : normalizePlanLegs (fun _ => .ok []) wordStrike =
      .error (.raised .valueError) := by decide +kernel
  rw [LegsLaw, hraised]
  exact id

end Portfolio.PlanLegs
