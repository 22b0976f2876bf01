import BifrostTrade.Portfolio.PositionAttribution

/-!
# The join of position attribution on stored keys

`_POS_EXEC_JOIN_PE` compares parts of two contract keys and one column.  It says what the contracts
say of a position and an execution of its account, except where the stored keys and columns are a
`Misfit` (`joins_eq_ofContract_iff`).
-/

namespace Portfolio.Attribution

open Py Persistence

section Keys

variable (cast : String → Option Double)

/-- The execution is of the position's account and contract. -/
def ofContract (p : PositionRow) (e : ExecutionRow) : Bool :=
  e.accountId = some p.accountId ∧ sameContract cast p e

/-- The keys of two options agree in text on expiry and right, and both have a strike. -/
structure KeysAlike (k k' : String) : Prop where
  type : trimUpper (splitPart k 2) = "OPT"
  type' : trimUpper (splitPart k' 2) = "OPT"
  expiry : trimSpaces (splitPart k 3) = trimSpaces (splitPart k' 3)
  right : trimUpper (splitPart k 5) = trimUpper (splitPart k' 5)
  strike : trimSpaces (splitPart k 4) ≠ ""
  strike' : trimSpaces (splitPart k' 4) ≠ ""

/-- The strikes of the keys are finite and `1e-9` apart at most. -/
def StrikesNear (k k' : String) : Prop :=
  ∃ a b : ℚ, cast (splitPart k 4) = some (.fin a) ∧ cast (splitPart k' 4) = some (.fin b) ∧
    |a - b| < 1 / 1000000000

/-- The underlying of a row, from its columns where they name one, else from its key. -/
def underlyingOf (key symbol underlyingSymbol : Option String) : String :=
  let underlying := underlyingSymbolFromRow underlyingSymbol symbol
  if underlying ≠ "" then underlying
  else underlyingSymbolFromRow none (some (keyPartOr key 1 none))

/-- The digits of an expiry column. -/
def expiryColumn (expiry : Option String) : List Char :=
  (strip (textOrEmpty expiry)).toList.filter (· ≠ '-')

/-- The first letter of a right column. -/
def rightColumn (right : Option String) : Option Char :=
  (upper (strip (textOrEmpty right))).toList.head?

/-- The type column of the position does not say that it is an option; the query then compares
whole keys. -/
def NotOptColumn (p : PositionRow) : Prop := trimUpper (p.secType.getD "") ≠ "OPT"

/-- The contracts of two options with keys that are alike: what the join does not look at. -/
structure RestAgrees (p : PositionRow) (e : ExecutionRow) (k : String) : Prop where
  underlying : underlyingOf (some p.contractKey) p.symbol none =
    underlyingOf e.contractKey e.symbol e.underlyingSymbol
  strike : cast (splitPart p.contractKey 4) = cast (splitPart k 4)
  expiry : strip (splitPart k 3) = "" → expiryColumn p.expiry = expiryColumn e.expiry
  right : strip (splitPart k 5) = "" → rightColumn p.optionRight = rightColumn e.optionRight

/-- The contracts of two rows with one key, the position an option: what the columns add. -/
structure ColumnsAgree (p : PositionRow) (e : ExecutionRow) : Prop where
  type : strip (splitPart p.contractKey 2) = "" → upper (strip (textOrEmpty e.secType)) = "OPT"
  strike : cast (splitPart p.contractKey 4) = none → p.strike ≠ none ∧ p.strike = e.strike
  underlying : underlyingOf (some p.contractKey) p.symbol none =
    underlyingOf e.contractKey e.symbol e.underlyingSymbol
  expiry : strip (splitPart p.contractKey 3) = "" → expiryColumn p.expiry = expiryColumn e.expiry
  right : strip (splitPart p.contractKey 5) = "" →
    rightColumn p.optionRight = rightColumn e.optionRight

/-- What fails the join for a position and an execution of its account. -/
inductive Misfit (p : PositionRow) (e : ExecutionRow) : Prop
  /-- Option keys that agree in expiry, right and strike, of different contracts all the same: the
  underlying is not compared, the strike only to `1e-9`, and blank parts count as equal. -/
  | otherOption (k : String) (hk : e.contractKey = some k) (alike : KeysAlike p.contractKey k)
      (near : StrikesNear cast p.contractKey k)
      (other : ¬ RestAgrees cast p e k)
  /-- One key for two rows, compared as a whole because the position is an option by its key only,
  where the columns add what tells the two apart. -/
  | otherColumns (hk : e.contractKey = some p.contractKey) (hcol : NotOptColumn p)
      (hopt : isOptionRow (some p.contractKey) p.secType = true)
      (other : ¬ ColumnsAgree cast p e)
  /-- The same option, with a key that is null, has no strike or an infinite one, does not say
  that it is an option, or spells expiry or right in another way. -/
  | missedOption (hopt : isOptionRow (some p.contractKey) p.secType = true)
      (same : sameContract cast p e = true)
      (unlike : ∀ k, e.contractKey = some k →
        KeysAlike p.contractKey k → ¬ StrikesNear cast p.contractKey k)
      (hcol : NotOptColumn p → e.contractKey ≠ some p.contractKey)
  /-- One key that is of no option, where the column says that the position is one. -/
  | missedKey (hk : e.contractKey = some p.contractKey) (hcol : ¬ NotOptColumn p)
      (hopt : isOptionRow (some p.contractKey) p.secType = false)

/-- Keys that agree but for a strike that does not cast. -/
def CastFails (p : PositionRow) (e : ExecutionRow) : Prop :=
  e.accountId = some p.accountId ∧ ∃ k, e.contractKey = some k ∧ KeysAlike p.contractKey k ∧
    (cast (splitPart p.contractKey 4) = none ∨ cast (splitPart k 4) = none)

/-- The keys of the position and the execution meet. -/
def KeysMeet (p : PositionRow) (e : ExecutionRow) : Prop :=
  e.accountId = some p.accountId ∧
    ((∃ k, e.contractKey = some k ∧ KeysAlike p.contractKey k ∧
        StrikesNear cast p.contractKey k) ∨
      NotOptColumn p ∧ e.contractKey = some p.contractKey)

end Keys

variable {cast : String → Option Double} {p : PositionRow}

/-! ## What the join compares -/

theorem upper_eq_empty_iff {s : String} : upper s = "" ↔ s = "" := by
  constructor
  · intro h
    have hnil : s.toList.flatMap upperChar = [] := by
      have := congrArg String.toList h
      rwa [upper, String.toList_ofList] at this
    rw [List.flatMap_eq_nil_iff] at hnil
    rw [← String.toList_inj]
    exact List.eq_nil_iff_forall_not_mem.2 fun c hc => upperChar_ne_nil c (hnil c hc)
  · rintro rfl
    rfl

theorem strip_eq_of_trimSpaces {s t : String} (h : trimSpaces s = trimSpaces t) :
    strip s = strip t := by
  rw [← strip_trimSpaces s, h, strip_trimSpaces]

theorem upper_strip_trimUpper (s : String) : strip (trimUpper s) = upper (strip s) := by
  rw [trimUpper, strip_upper, strip_trimSpaces]

theorem upper_strip_of_trimUpper {s t : String} (h : trimUpper s = trimUpper t) :
    upper (strip s) = upper (strip t) := by
  rw [← upper_strip_trimUpper, h, upper_strip_trimUpper]

theorem keyPartOr_some (k : String) (n : ℕ) (column : Option String) :
    keyPartOr (some k) n column = splitPart k n := rfl

/-- The expiry that the contracts compare. -/
def expiryOf (key expiry : Option String) : String :=
  String.ofList ((keyPartElse key 3 expiry).toList.filter (· ≠ '-'))

/-- The right that the contracts compare. -/
def rightOf (key optionRight : Option String) : Option Char :=
  (upper (keyPartElse key 5 optionRight)).toList.head?

/-- The strike that the contracts compare. -/
def strikeOf (cast : String → Option Double) (key : Option String) (strike : Option ℚ) :
    Option Double :=
  (cast (keyPartOr key 4 none)).or (strike.map Double.fin)

/-- An execution is of the contract of an option when it is an option row with its terms. -/
theorem sameContract_iff {e : ExecutionRow}
    (hopt : isOptionRow (some p.contractKey) p.secType = true) :
    sameContract cast p e = true ↔ isOptionRow e.contractKey e.secType = true ∧
      (∃ s, strikeOf cast (some p.contractKey) p.strike = some s ∧
        strikeOf cast e.contractKey e.strike = some s) ∧
      underlyingOf (some p.contractKey) p.symbol none =
        underlyingOf e.contractKey e.symbol e.underlyingSymbol ∧
      expiryOf (some p.contractKey) p.expiry = expiryOf e.contractKey e.expiry ∧
      rightOf (some p.contractKey) p.optionRight = rightOf e.contractKey e.optionRight := by
  have hp : optionTerms cast (some p.contractKey) p.symbol none p.expiry p.strike p.optionRight =
      (strikeOf cast (some p.contractKey) p.strike).map fun s =>
        ⟨underlyingOf (some p.contractKey) p.symbol none, expiryOf (some p.contractKey) p.expiry, s,
          rightOf (some p.contractKey) p.optionRight⟩ := rfl
  have he : optionTerms cast e.contractKey e.symbol e.underlyingSymbol e.expiry e.strike
      e.optionRight = (strikeOf cast e.contractKey e.strike).map fun s =>
        ⟨underlyingOf e.contractKey e.symbol e.underlyingSymbol, expiryOf e.contractKey e.expiry, s,
          rightOf e.contractKey e.optionRight⟩ := rfl
  rw [sameContract, if_pos hopt, decide_eq_true_eq, hp, he]
  cases hs : strikeOf cast (some p.contractKey) p.strike with
  | none => simp
  | some s =>
    cases hs' : strikeOf cast e.contractKey e.strike with
    | none => simp
    | some s' =>
      simp only [Option.map_some, Option.any_some, decide_eq_true_eq, Option.some.injEq,
        OptionTerms.mk.injEq]
      constructor
      · rintro ⟨ho, hu, hx, rfl, hr⟩
        exact ⟨ho, ⟨s', rfl, rfl⟩, hu.symm, hx.symm, hr.symm⟩
      · rintro ⟨ho, ⟨t, rfl, rfl⟩, hu, hx, hr⟩
        exact ⟨ho, hu.symm, hx.symm, rfl, hr.symm⟩

/-- Expiry parts that agree leave the columns to decide where they are blank. -/
theorem expiryOf_eq_iff {k k' : String} (h : strip (splitPart k 3) = strip (splitPart k' 3))
    (x x' : Option String) : expiryOf (some k) x = expiryOf (some k') x' ↔
      (strip (splitPart k' 3) = "" → expiryColumn x = expiryColumn x') := by
  rw [expiryOf, expiryOf, keyPartElse, keyPartElse, keyPartOr_some, keyPartOr_some]
  by_cases hb : strip (splitPart k' 3) = ""
  · rw [if_neg (by simpa [h] using hb), if_neg (by simpa using hb), String.ofList_inj]
    simp only [hb, forall_const, expiryColumn]
  · rw [if_pos (by rwa [h]), if_pos hb, h]
    simp [hb]

theorem rightOf_eq_iff {k k' : String}
    (h : upper (strip (splitPart k 5)) = upper (strip (splitPart k' 5)))
    (x x' : Option String) : rightOf (some k) x = rightOf (some k') x' ↔
      (strip (splitPart k' 5) = "" → rightColumn x = rightColumn x') := by
  have hblank : strip (splitPart k 5) = "" ↔ strip (splitPart k' 5) = "" := by
    rw [← upper_eq_empty_iff, h, upper_eq_empty_iff]
  rw [rightOf, rightOf, keyPartElse, keyPartElse, keyPartOr_some, keyPartOr_some]
  by_cases hb : strip (splitPart k' 5) = ""
  · rw [if_neg (by simpa [hblank] using hb), if_neg (by simpa using hb)]
    simp only [hb, forall_const, rightColumn]
  · rw [if_pos (by rwa [ne_eq, hblank]), if_pos hb, h]
    simp [hb]

/-- A key that says OPT makes an option row of any column. -/
theorem isOptionRow_of_type {k : String} (h : trimUpper (splitPart k 2) = "OPT")
    (column : Option String) : isOptionRow (some k) column = true := by
  have hopt : upper (strip (splitPart k 2)) = "OPT" := by
    rw [← upper_strip_trimUpper, h]
    decide
  have hne : strip (splitPart k 2) ≠ "" := by
    intro h0
    rw [h0] at hopt
    exact absurd hopt (by decide)
  rw [isOptionRow, keyPartElse, keyPartOr_some]
  rw [if_pos hne]
  exact decide_eq_true hopt

theorem near_iff {a b : Double} : near a b = true ↔
    ∃ x y : ℚ, a = .fin x ∧ b = .fin y ∧ |x - y| < 1 / 1000000000 := by
  constructor
  · intro h
    cases a with
    | fin x =>
      cases b with
      | fin y => exact ⟨x, y, rfl, rfl, of_decide_eq_true h⟩
      | _ => exact absurd h Bool.false_ne_true
    | _ => exact absurd h Bool.false_ne_true
  · rintro ⟨x, y, rfl, rfl, h⟩
    exact decide_eq_true h

/-- The option branch of the join on the stored keys. -/
theorem optionPartsMatch_iff {e : ExecutionRow} : optionPartsMatch p e = true ↔
    ∃ k, e.contractKey = some k ∧ KeysAlike p.contractKey k := by
  rw [optionPartsMatch, decide_eq_true_eq]
  cases hk : e.contractKey with
  | none =>
    have hblank : trimSpaces (keyPartOr none 4 none) = "" := by decide
    simp [hblank]
  | some k =>
    constructor
    · rintro ⟨ht, ht', hx, hr, hs, hs'⟩
      exact ⟨k, rfl, ht, ht', hx, hr, hs, hs'⟩
    · rintro ⟨k', hk', h⟩
      cases hk'
      exact ⟨h.type, h.type', h.expiry, h.right, h.strike, h.strike'⟩

/-- The whole-key branch of the join. -/
theorem otherKey_iff {e : ExecutionRow} :
    decide (trimUpper (p.secType.getD "") ≠ "OPT" ∧ e.contractKey = some p.contractKey) = true ↔
      NotOptColumn p ∧ e.contractKey = some p.contractKey :=
  decide_eq_true_iff

theorem posExecJoin_of_unlike {e : ExecutionRow} (h : ¬ optionPartsMatch p e = true) :
    posExecJoin cast p e = some (decide (trimUpper (p.secType.getD "") ≠ "OPT" ∧
      e.contractKey = some p.contractKey)) := by
  rw [posExecJoin, if_neg h]

theorem posExecJoin_of_alike {e : ExecutionRow} {k : String} (hk : e.contractKey = some k)
    (alike : KeysAlike p.contractKey k) : posExecJoin cast p e =
      (cast (splitPart p.contractKey 4)).bind fun a => (cast (splitPart k 4)).map fun b =>
        near a b || decide (trimUpper (p.secType.getD "") ≠ "OPT" ∧
          e.contractKey = some p.contractKey) := by
  rw [posExecJoin, if_pos (optionPartsMatch_iff.2 ⟨k, hk, alike⟩), hk, keyPartOr_some,
    keyPartOr_some]
  cases cast (splitPart p.contractKey 4) with
  | none => rfl
  | some a => cases cast (splitPart k 4) <;> rfl

/-- The cast that the join of two rows needs fails. -/
theorem castFails_iff {e : ExecutionRow} : castFails cast p e = true ↔ CastFails cast p e := by
  rw [castFails, CastFails, decide_eq_true_eq]
  refine and_congr_right fun _ => ?_
  by_cases hparts : optionPartsMatch p e = true
  · obtain ⟨k, hk, alike⟩ := optionPartsMatch_iff.1 hparts
    rw [posExecJoin_of_alike hk alike]
    constructor
    · intro h
      refine ⟨k, hk, alike, ?_⟩
      cases hp : cast (splitPart p.contractKey 4) with
      | none => exact Or.inl rfl
      | some a =>
        rw [hp, Option.bind_some, Option.map_eq_none_iff] at h
        exact Or.inr h
    · rintro ⟨k', hk', -, h⟩
      cases hk.symm.trans hk'
      rcases h with h | h
      · rw [h, Option.bind_none]
      · rw [h]
        cases cast (splitPart p.contractKey 4) <;> rfl
  · rw [posExecJoin_of_unlike hparts]
    refine iff_of_false (Option.some_ne_none _) ?_
    rintro ⟨k, hk, alike, -⟩
    exact hparts (optionPartsMatch_iff.2 ⟨k, hk, alike⟩)

/-- The join of a position and an execution, on the stored keys. -/
theorem joins_iff {e : ExecutionRow} (hcast : ¬ CastFails cast p e) :
    joins cast p e = true ↔ KeysMeet cast p e := by
  rw [joins, KeysMeet, decide_eq_true_eq]
  refine and_congr_right fun hacc => ?_
  rw [← otherKey_iff]
  by_cases hparts : optionPartsMatch p e = true
  · obtain ⟨k, hk, alike⟩ := optionPartsMatch_iff.1 hparts
    have hcasts : cast (splitPart p.contractKey 4) ≠ none ∧ cast (splitPart k 4) ≠ none := by
      rw [← not_or]
      exact fun h => hcast ⟨hacc, k, hk, alike, h⟩
    obtain ⟨a, ha⟩ := Option.ne_none_iff_exists'.1 hcasts.1
    obtain ⟨b, hb⟩ := Option.ne_none_iff_exists'.1 hcasts.2
    have hstrikes : (∃ k', e.contractKey = some k' ∧ KeysAlike p.contractKey k' ∧
        StrikesNear cast p.contractKey k') ↔ near a b = true := by
      rw [near_iff]
      constructor
      · rintro ⟨k', hk', -, x, y, hx, hy, h⟩
        cases hk.symm.trans hk'
        exact ⟨x, y, Option.some.inj (ha.symm.trans hx), Option.some.inj (hb.symm.trans hy), h⟩
      · rintro ⟨x, y, rfl, rfl, h⟩
        exact ⟨k, hk, alike, x, y, ha, hb, h⟩
    rw [posExecJoin_of_alike hk alike, hstrikes, ha, hb, Option.bind_some, Option.map_some,
      Option.some.injEq, Bool.or_eq_true]
  · have hunlike : ¬ ∃ k, e.contractKey = some k ∧ KeysAlike p.contractKey k ∧
        StrikesNear cast p.contractKey k := by
      rintro ⟨k, hk, alike, -⟩
      exact hparts (optionPartsMatch_iff.2 ⟨k, hk, alike⟩)
    rw [posExecJoin_of_unlike hparts, Option.some.injEq]
    exact (or_iff_right hunlike).symm

/-- An option fill that the join reaches by the parts of its key is of the contract when what the
join does not look at agrees. -/
theorem sameContract_of_alike {e : ExecutionRow} {k : String} (hk : e.contractKey = some k)
    (alike : KeysAlike p.contractKey k) (near : StrikesNear cast p.contractKey k) :
    sameContract cast p e = true ↔ RestAgrees cast p e k := by
  obtain ⟨a, b, ha, hb, -⟩ := near
  have hstrike : (∃ s, strikeOf cast (some p.contractKey) p.strike = some s ∧
        strikeOf cast (some k) e.strike = some s) ↔
      cast (splitPart p.contractKey 4) = cast (splitPart k 4) := by
    rw [strikeOf, strikeOf, keyPartOr_some, keyPartOr_some, ha, hb]
    simp [eq_comm]
  rw [sameContract_iff (isOptionRow_of_type alike.type _), hk, hstrike,
    expiryOf_eq_iff (strip_eq_of_trimSpaces alike.expiry),
    rightOf_eq_iff (upper_strip_of_trimUpper alike.right)]
  constructor
  · rintro ⟨-, hs, hu, hx, hr⟩
    exact ⟨hk ▸ hu, hs, hx, hr⟩
  · rintro ⟨hu, hs, hx, hr⟩
    exact ⟨isOptionRow_of_type alike.type' _, hs, hk ▸ hu, hx, hr⟩

theorem exists_strike_iff {a b : Option ℚ} :
    (∃ s, a.map Double.fin = some s ∧ b.map Double.fin = some s) ↔ a ≠ none ∧ a = b := by
  cases a with
  | none => simp
  | some x =>
    cases b with
    | none => simp
    | some y => simp [eq_comm]

/-- With one key the columns decide, where the key leaves a part blank. -/
theorem sameContract_of_sameKey {e : ExecutionRow} (hk : e.contractKey = some p.contractKey)
    (hopt : isOptionRow (some p.contractKey) p.secType = true) :
    sameContract cast p e = true ↔ ColumnsAgree cast p e := by
  have htype : isOptionRow (some p.contractKey) e.secType = true ↔
      (strip (splitPart p.contractKey 2) = "" → upper (strip (textOrEmpty e.secType)) = "OPT") := by
    rw [isOptionRow, keyPartElse, keyPartOr_some] at hopt ⊢
    by_cases hb : strip (splitPart p.contractKey 2) = ""
    · rw [if_neg (not_not.2 hb), decide_eq_true_eq]
      simp only [hb, forall_const]
    · rw [if_pos hb] at hopt ⊢
      exact iff_of_true hopt fun h => absurd h hb
  have hstrike : (∃ s, strikeOf cast (some p.contractKey) p.strike = some s ∧
        strikeOf cast (some p.contractKey) e.strike = some s) ↔
      (cast (splitPart p.contractKey 4) = none → p.strike ≠ none ∧ p.strike = e.strike) := by
    rw [strikeOf, strikeOf, keyPartOr_some]
    cases cast (splitPart p.contractKey 4) with
    | some a => exact iff_of_true ⟨a, rfl, rfl⟩ fun h => absurd h (Option.some_ne_none a)
    | none =>
      rw [Option.none_or, Option.none_or, exists_strike_iff]
      exact ⟨fun h _ => h, fun h => h rfl⟩
  rw [sameContract_iff hopt, hk, htype, hstrike, expiryOf_eq_iff rfl, rightOf_eq_iff rfl]
  constructor
  · rintro ⟨ht, hs, hu, hx, hr⟩
    exact ⟨ht, hs, by rw [hk]; exact hu, hx, hr⟩
  · rintro ⟨ht, hs, hu, hx, hr⟩
    exact ⟨ht, hs, by rw [hk] at hu; exact hu, hx, hr⟩

/-- The join disagrees with the contracts exactly on the misfits. -/
theorem joins_eq_ofContract_iff {e : ExecutionRow} (hacc : e.accountId = some p.accountId)
    (hcast : ¬ CastFails cast p e) :
    joins cast p e = ofContract cast p e ↔ ¬ Misfit cast p e := by
  have hof : ofContract cast p e = true ↔ sameContract cast p e = true := by
    rw [ofContract, decide_eq_true_eq]
    exact and_iff_right hacc
  have hmeet : KeysMeet cast p e ↔ (∃ k, e.contractKey = some k ∧ KeysAlike p.contractKey k ∧
      StrikesNear cast p.contractKey k) ∨ NotOptColumn p ∧ e.contractKey = some p.contractKey :=
    and_iff_right hacc
  rw [Bool.eq_iff_iff, joins_iff hcast, hof, hmeet]
  constructor
  · rintro h (⟨k, hk, alike, near, other⟩ | ⟨hk, hcol, hopt, other⟩ | ⟨hopt, same, unlike, hcol⟩ |
      ⟨hk, hcol, hopt⟩)
    · have hsame := h.1 (Or.inl ⟨k, hk, alike, near⟩)
      exact other ((sameContract_of_alike hk alike near).1 hsame)
    · have hsame := h.1 (Or.inr ⟨hcol, hk⟩)
      exact other ((sameContract_of_sameKey hk hopt).1 hsame)
    · rcases h.2 same with ⟨k, hk, alike, near⟩ | ⟨hnot, hk⟩
      · exact unlike k hk alike near
      · exact hcol hnot hk
    · have hsame : sameContract cast p e = true := by
        rw [sameContract, hopt, if_neg Bool.false_ne_true]
        exact decide_eq_true hk
      rcases h.2 hsame with ⟨k, -, alike, -⟩ | ⟨hnot, -⟩
      · rw [isOptionRow_of_type alike.type] at hopt
        exact absurd hopt.symm Bool.false_ne_true
      · exact hcol hnot
  · intro h
    by_cases hopt : isOptionRow (some p.contractKey) p.secType = true
    · constructor
      · rintro (⟨k, hk, alike, near⟩ | ⟨hcol, hk⟩)
        · rw [sameContract_of_alike hk alike near]
          exact not_not.1 (mt (Misfit.otherOption k hk alike near) h)
        · rw [sameContract_of_sameKey hk hopt]
          exact not_not.1 (mt (Misfit.otherColumns hk hcol hopt) h)
      · intro same
        by_contra hno
        rw [not_or, not_and] at hno
        exact h (.missedOption hopt same
          (fun k hk alike near => hno.1 ⟨k, hk, alike, near⟩) hno.2)
    · rw [Bool.not_eq_true] at hopt
      have hkey : sameContract cast p e = true ↔ e.contractKey = some p.contractKey := by
        rw [sameContract, hopt, if_neg Bool.false_ne_true, decide_eq_true_eq]
      have hcol : e.contractKey = some p.contractKey → NotOptColumn p := fun hk => by
        by_contra hcol
        exact h (.missedKey hk hcol hopt)
      rw [hkey]
      constructor
      · rintro (⟨k, -, alike, -⟩ | ⟨-, hk⟩)
        · rw [isOptionRow_of_type alike.type] at hopt
          exact absurd hopt.symm Bool.false_ne_true
        · exact hk
      · exact fun hk => Or.inr ⟨hcol hk, hk⟩

theorem joins_eq_ofContract_of_account {e : ExecutionRow} (h : e.accountId ≠ some p.accountId) :
    joins cast p e = ofContract cast p e := by
  rw [joins, ofContract]
  simp only [h, false_and]

end Portfolio.Attribution
