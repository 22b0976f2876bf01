import BifrostTrade.Lib.DateText
import BifrostTrade.Portfolio.PlanLegsLaw

/-!
# Plan legs from the slots of a template

`abstract_leg_to_plan_leg` of `monitor/schemas/gate_params.py` turns a slot of a template or a
structure into a leg of a plan.  The leg is normal, so `normalize_plan_legs` keeps it as it is
(`canonical_of_resolved`).  The key of an option takes the expiry without its dashes, which is the
date in eight digits only where the expiry is ISO text, and any strike that is a number
(`resolves_iff`).
-/

namespace Portfolio.PlanLegs

open Py
open Py.Iso (codes)

/-- The direction of a leg of a structure. -/
inductive LegDirection where
  | long
  | short
  deriving DecidableEq

/-- `""` is a stock leg. -/
inductive LegOptionRight where
  | blank
  | C
  | P
  deriving DecidableEq

/-- What a leg of a plan takes of a slot. -/
structure AbstractLeg where
  direction : Option LegDirection
  optionRight : Option LegOptionRight
  quantity : ℤ
  quantity_pos : 1 ≤ quantity

/-- A strike: an integer or a float. -/
inductive Strike where
  | int (n : ℤ)
  | float (x : Double)
  deriving DecidableEq

/-- `float(strike)`. -/
def Strike.toFloat : Strike → Except Raised Double
  | .int n => floatOf (.int n)
  | .float x => floatOf (.float x)

/-- `_DIRECTION_TO_SIDE`. -/
def directionToSide : LegDirection → String
  | .long => "buy"
  | .short => "sell"

/-- `slot.option_right or None`. -/
def slotRight (slot : AbstractLeg) : Option String :=
  match slot.optionRight with
  | some .C => some "C"
  | some .P => some "P"
  | _ => none

/-- `symbol.strip().upper()`. -/
def symbolOf (symbol : String) : String := upper (strip symbol)

/-- `opt_key` of texts. -/
def optKeyPoints (symbol expiry strike right : List ℕ) : List ℕ :=
  symbol ++ (codes "|OPT|".toList ++ (expiry ++ (codes "|".toList ++ (strike ++
    (codes "|".toList ++ right)))))

/-- A leg of shares. -/
def stockLeg (side : String) (quantity : ℤ) : Leg where
  side := side
  secType := "STK"
  right := none
  strike := none
  expiry := none
  ratio := quantity
  contractKey := none
  midAtPlan := none
  quoteAsof := none

/-- The leg of an option; its key has the expiry without dashes. -/
def optionLeg (side : String) (quantity : ℤ) (symbol right : String) (expiry : List ℕ)
    (k : Double) : Leg where
  side := side
  secType := "OPT"
  right := some right
  strike := some k
  expiry := some expiry
  ratio := quantity
  contractKey := some (optKeyPoints (codes symbol.toList) (expiry.filter (· ≠ 45))
    (codes (reprFloat k).toList) (codes right.toList))
  midAtPlan := none
  quoteAsof := none

/-- The option a slot stands for. -/
def resolveOption (side : String) (quantity : ℤ) (symbol right : String)
    (expiry : Option (List ℕ)) (strike : Option Strike) : Except Failure Leg :=
  match expiry, strike with
  | some points, some strike =>
      if points = [] then .error (.refused "an option leg needs expiry and strike")
      else if isCalendar (stripPoints points) = false then
        .error (.refused "expiry must be YYYY-MM-DD")
      else do
        let k ← unguarded strike.toFloat
        return optionLeg side quantity symbol right (stripPoints points) k
  | _, _ => .error (.refused "an option leg needs expiry and strike")

/-- `abstract_leg_to_plan_leg`; a `ValueError` is refused with its reason. -/
def abstractLegToPlanLeg (slot : AbstractLeg) (symbol : String) (expiry : Option (List ℕ))
    (strike : Option Strike) : Except Failure Leg :=
  match slot.direction with
  | none => .error (.refused "leg has no direction (long / short)")
  | some direction =>
      if symbolOf symbol = "" then .error (.refused "symbol is required")
      else
        match slotRight slot with
        | none => .ok (stockLeg (directionToSide direction) slot.quantity)
        | some right =>
            resolveOption (directionToSide direction) slot.quantity (symbolOf symbol) right expiry
              strike

/-! ## The law -/

/-- A leg of this symbol is kept as it is, and the key of an option is that of its own date, finite
strike and right. -/
structure Resolves (inner : Json.Value → Except Raised (List ℕ)) (symbol : String) (l : Leg) :
    Prop where
  kept : normalizePlanLegs inner (.array [l.json]) = .ok [l]
  key : l.secType = "OPT" → ∃ expiry date strike right, l.expiry = some expiry ∧
    strptimeDate (pointsText expiry) = some date ∧ l.strike = some strike ∧
    strike.isFinite = true ∧ l.right = some right ∧
    l.contractKey = some (optKeyPoints (codes (symbolOf symbol).toList) (codes date.compactChars)
      (codes (reprFloat strike).toList) (codes right.toList))

/-- A strike that is neither an infinity nor NaN. -/
def Strike.isFinite : Strike → Bool
  | .int _ => true
  | .float x => x.isFinite

/-- The expiry of an option is ISO text between blanks, and its strike is finite. -/
def Plain (slot : AbstractLeg) (expiry : Option (List ℕ)) (strike : Option Strike) : Prop :=
  slotRight slot ≠ none →
    (∀ points ∈ expiry, ∃ date : Date, stripPoints points = codes date.isoChars) ∧
    ∀ s ∈ strike, s.isFinite = true

/-! ## What is returned -/

section Returned

variable {slot : AbstractLeg} {symbol : String} {expiry : Option (List ℕ)}
  {strike : Option Strike} {l : Leg}

theorem resolveOption_ok_iff {side right : String} {quantity : ℤ} :
    resolveOption side quantity symbol right expiry strike = .ok l ↔
      ∃ points s k, expiry = some points ∧ strike = some s ∧ points ≠ [] ∧
        isCalendar (stripPoints points) = true ∧ s.toFloat = .ok k ∧
        optionLeg side quantity symbol right (stripPoints points) k = l := by
  unfold resolveOption
  split
  · rename_i points s
    rw [if_refused_eq_ok_iff, if_refused_eq_ok_iff, bind_ok_iff]
    simp only [unguarded_eq_ok_iff, Bool.not_eq_false]
    constructor
    · rintro ⟨hpoints, hcalendar, k, hk, hl⟩
      exact ⟨points, s, k, rfl, rfl, hpoints, hcalendar, hk, Except.ok.inj hl⟩
    · rintro ⟨points', s', k, ⟨⟩, ⟨⟩, hpoints, hcalendar, hk, rfl⟩
      exact ⟨hpoints, hcalendar, k, hk, rfl⟩
  · rename_i hnot
    simp only [reduceCtorEq, false_iff]
    rintro ⟨points, s, k, rfl, rfl, -⟩
    exact hnot points s rfl rfl

/-- A slot gives a leg of shares, or the leg of an option. -/
theorem resolved_cases (h : abstractLegToPlanLeg slot symbol expiry strike = .ok l) :
    symbolOf symbol ≠ "" ∧ ∃ direction,
      (slotRight slot = none ∧ l = stockLeg (directionToSide direction) slot.quantity) ∨
      ∃ right points s k, slotRight slot = some right ∧ expiry = some points ∧ strike = some s ∧
        isCalendar (stripPoints points) = true ∧ s.toFloat = .ok k ∧
        l = optionLeg (directionToSide direction) slot.quantity (symbolOf symbol) right
          (stripPoints points) k := by
  unfold abstractLegToPlanLeg at h
  split at h
  · cases h
  · rename_i direction _
    rw [if_refused_eq_ok_iff] at h
    obtain ⟨hsymbol, h⟩ := h
    refine ⟨hsymbol, direction, ?_⟩
    split at h
    · exact Or.inl ⟨‹_›, (Except.ok.inj h).symm⟩
    · obtain ⟨points, s, k, hexpiry, hstrike, -, hcalendar, hk, hl⟩ := resolveOption_ok_iff.1 h
      exact Or.inr ⟨_, points, s, k, ‹_›, hexpiry, hstrike, hcalendar, hk, hl.symm⟩

theorem directionToSide_mem (direction : LegDirection) : directionToSide direction ∈ sides := by
  cases direction <;> decide

theorem slotRight_mem {right : String} (h : slotRight slot = some right) : right ∈ rights := by
  unfold slotRight at h
  split at h
  · obtain rfl := Option.some.inj h
    decide
  · obtain rfl := Option.some.inj h
    decide
  · cases h

theorem stripPoints_of_ends {a z : ℕ} {mid : List ℕ} (ha : isSpacePoint a = false)
    (hz : isSpacePoint z = false) : stripPoints (a :: (mid ++ [z])) = a :: (mid ++ [z]) := by
  rw [stripPoints, List.dropWhile_cons_of_neg (by simp [ha]), ← List.cons_append,
    List.rdropWhile_concat_neg _ _ _ (by simp [hz])]

/-- The key starts with the symbol and ends with the right. -/
theorem stripPoints_optKeyPoints {right : String} {exp k : List ℕ} (hsymbol : symbolOf symbol ≠ "")
    (hright : right ∈ rights) :
    stripPoints (optKeyPoints (codes (symbolOf symbol).toList) exp k (codes right.toList)) =
      optKeyPoints (codes (symbolOf symbol).toList) exp k (codes right.toList) := by
  have hstrip : strip (symbolOf symbol) = symbolOf symbol := by
    rw [symbolOf, strip_upper, strip_strip]
  obtain ⟨z, hz, hzSpace⟩ : ∃ z, codes right.toList = [z] ∧ isSpacePoint z = false := by
    have hwords : ∀ r ∈ rights, ∃ z ∈ [67, 80], codes r.toList = [z] ∧ isSpacePoint z = false := by
      decide
    obtain ⟨z, -, hz⟩ := hwords right hright
    exact ⟨z, hz⟩
  cases hs : (symbolOf symbol).toList with
  | nil => exact absurd (String.toList_eq_nil_iff.1 hs) hsymbol
  | cons c cs =>
    have hc : isSpacePoint c.toNat = false := by
      rw [isSpacePoint, Char.ofNat_toNat]
      exact isSpace_of_strip hstrip hs
    have hends := @stripPoints_of_ends c.toNat z (codes cs ++ (codes "|OPT|".toList ++ (exp ++
      (codes "|".toList ++ (k ++ codes "|".toList))))) hc hzSpace
    simpa [optKeyPoints, hz] using hends

theorem Canonical.stockLeg {side : String} {quantity : ℤ} (hside : side ∈ sides)
    (hquantity : 1 ≤ quantity) : Canonical (stockLeg side quantity) := by
  refine ⟨hside, ?_, ?_, ?_, ?_, hquantity, ?_, ?_⟩
  all_goals simp [PlanLegs.stockLeg, secTypes]

/-- A leg that is returned is normal. -/
theorem canonical_of_resolved (h : abstractLegToPlanLeg slot symbol expiry strike = .ok l) :
    Canonical l := by
  obtain ⟨hsymbol, direction, ⟨-, rfl⟩ | ⟨right, points, s, k, hright, -, -, hcalendar, -, rfl⟩⟩ :=
    resolved_cases h
  · exact .stockLeg (directionToSide_mem direction) slot.quantity_pos
  · refine ⟨directionToSide_mem direction, by simp [optionLeg, secTypes], ?_, ?_, ?_,
      slot.quantity_pos, ?_, ?_⟩
    · rintro r hr
      obtain rfl := Option.some.inj hr
      exact slotRight_mem hright
    · simp [optionLeg]
    · intro e he
      obtain rfl := Option.some.inj he
      exact ⟨stripPoints_stripPoints points, hcalendar⟩
    · intro key hkey
      obtain rfl := Option.some.inj hkey
      refine ⟨stripPoints_optKeyPoints hsymbol (slotRight_mem hright), ?_⟩
      simp [optKeyPoints, codes]
    · simp [optionLeg]

theorem isFinite_toFloat {s : Strike} {k : Double} (h : s.toFloat = .ok k) :
    k.isFinite = s.isFinite := by
  cases s with
  | int n =>
    rw [Strike.toFloat, floatOf] at h
    split_ifs at h with hinf
    obtain rfl := Except.ok.inj h
    unfold nearest at hinf ⊢
    split_ifs at hinf ⊢ <;> simp_all [Double.isInf, Double.isFinite, Strike.isFinite]
  | float x =>
    obtain rfl := Except.ok.inj h
    rfl

theorem optKeyPoints_expiry_inj {sym exp exp' k right : List ℕ} :
    optKeyPoints sym exp k right = optKeyPoints sym exp' k right ↔ exp = exp' := by
  simp [optKeyPoints]

theorem kept_of_canonical (inner : Json.Value → Except Raised (List ℕ)) (h : Canonical l) :
    normalizePlanLegs inner (.array [l.json]) = .ok [l] := by
  show normalizePlanLegs inner (.array ([l].map Leg.json)) = _
  apply normalizePlanLegs_canonical
  intro l' hl'
  rw [List.mem_singleton.1 hl']
  exact h

/-- The key of an option is that of its own fields exactly when the expiry is ISO text and the
strike is finite. -/
theorem resolves_iff (inner : Json.Value → Except Raised (List ℕ))
    (h : abstractLegToPlanLeg slot symbol expiry strike = .ok l) :
    Resolves inner symbol l ↔ Plain slot expiry strike := by
  have hkept := kept_of_canonical inner (canonical_of_resolved h)
  obtain ⟨-, direction, ⟨hright, rfl⟩ | ⟨right, points, s, k, hright, rfl, rfl, -, hk, rfl⟩⟩ :=
    resolved_cases h
  · refine ⟨fun _ hne => absurd hright hne, fun _ => ⟨hkept, fun hsec => ?_⟩⟩
    exact absurd hsec (by simp [stockLeg])
  · have hplain : Plain slot (some points) (some s) ↔
        (∃ date : Date, stripPoints points = codes date.isoChars) ∧ k.isFinite = true := by
      simp [Plain, hright, isFinite_toFloat hk]
    rw [hplain]
    constructor
    · rintro ⟨-, hkey⟩
      obtain ⟨e, date, x, r, ⟨⟩, hdate, ⟨⟩, hfinite, ⟨⟩, hkey⟩ := hkey rfl
      refine ⟨⟨date, (compactPoints_iff hdate).1 ?_⟩, hfinite⟩
      exact optKeyPoints_expiry_inj.1 (Option.some.inj hkey)
    · rintro ⟨⟨date, hiso⟩, hfinite⟩
      have hdate : strptimeDate (pointsText (stripPoints points)) = some date := by
        apply strptimeDate_of_isoChars
        rw [pointsText, String.toList_ofList, hiso, map_ofNat_codes]
      refine ⟨hkept, fun _ => ⟨_, date, k, right, rfl, hdate, rfl, hfinite, rfl, ?_⟩⟩
      exact congrArg some (optKeyPoints_expiry_inj.2 ((compactPoints_iff hdate).2 hiso))

/-- A put that is sold twice. -/
def shortPut : AbstractLeg := ⟨some .short, some .P, 2, by decide⟩

theorem resolves_shortPut : Resolves (fun _ => .ok []) " zzzq"
    (optionLeg "sell" 2 "ZZZQ" "P" (codes "2026-10-16".toList) (.fin (165 / 2))) := by
  have hresolved : abstractLegToPlanLeg shortPut " zzzq" (some (codes "2026-10-16".toList))
      (some (.float (.fin (165 / 2)))) =
      .ok (optionLeg "sell" 2 "ZZZQ" "P" (codes "2026-10-16".toList) (.fin (165 / 2))) := by
    decide +kernel
  refine (resolves_iff (fun _ => .ok []) hresolved).2 fun _ => ⟨?_, ?_⟩
  · rintro points ⟨⟩
    exact ⟨⟨2026, 10, 16, by decide, by decide, by decide⟩, by decide +kernel⟩
  · rintro s ⟨⟩
    rfl

/-- With a month of one digit the key has six digits for its date. -/
theorem not_resolves_short_month : ∃ l, abstractLegToPlanLeg shortPut "ZZZQ"
    (some (codes "2026-1-5".toList)) (some (.int 80)) = .ok l ∧
    ¬ Resolves (fun _ => .ok []) "ZZZQ" l := by
  refine ⟨optionLeg "sell" 2 "ZZZQ" "P" (codes "2026-1-5".toList) (.fin 80), by decide +kernel, ?_⟩
  rintro ⟨-, hkey⟩
  obtain ⟨e, date, x, r, ⟨⟩, hdate, ⟨⟩, -, ⟨⟩, hkey⟩ := hkey rfl
  have hread : strptimeDate (pointsText (codes "2026-1-5".toList)) =
      some ⟨2026, 1, 5, by decide, by decide, by decide⟩ := by decide +kernel
  rw [hread] at hdate
  obtain rfl := Option.some.inj hdate
  exact absurd hkey (by decide +kernel)

end Returned

end Portfolio.PlanLegs
