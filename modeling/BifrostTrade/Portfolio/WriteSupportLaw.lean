import BifrostTrade.Portfolio.WriteSupport

/-!
# When a validator raises nothing else

Every validator answers a well formed value, `None` for a null that may be sent, or `WriteInvalid`,
but for two conversions.  `integer` lets the `ValueError` of `int` through for digits that it does
not take, and `number` the `OverflowError` of `float`; a limit of too many digits cannot be written
into a message either (`validators_iff`).
-/

namespace Portfolio.WriteSupport

open Py
open Py.Iso (codes)

/-! ## The law -/

/-- The answer is well formed, `None` for a null that may be sent, or `WriteInvalid`. -/
def Lawful {α : Type} (value : Json.Value) (nullable : Bool) (wellFormed : α → Prop) :
    Except Failure (Option α) → Prop
  | .ok none => nullable = true ∧ value = .null
  | .ok (some out) => wellFormed out
  | .error (.refused _) => True
  | .error (.raised _) => False

/-- The answer of a validator without `None`. -/
def LawfulValue {α : Type} (wellFormed : α → Prop) : Except Failure α → Prop
  | .ok out => wellFormed out
  | .error (.refused _) => True
  | .error (.raised _) => False

/-- Trimmed text of the value, not blank and not too long. -/
def WellFormedText (value : Json.Value) (maxLen : Option ℤ) (out : List ℕ) : Prop :=
  (∃ points, value = .text points ∧ out = stripPoints points) ∧ out ≠ [] ∧
    stripPoints out = out ∧ ∀ m ∈ maxLen, (out.length : ℤ) ≤ m

/-- The law of `text`. -/
def TextLaw (value : Json.Value) (name : String) (nullable : Bool) (maxLen : Option ℤ) : Prop :=
  Lawful value nullable (WellFormedText value maxLen) (text value name nullable maxLen)

/-- The law of `integer`. -/
def IntegerLaw (value : Json.Value) (name : String) (nullable : Bool) (minimum : Option ℤ) : Prop :=
  Lawful value nullable (fun n : ℤ => ∀ m ∈ minimum, m ≤ n) (integer value name nullable minimum)

/-- The law of `row_id`. -/
def RowIdLaw (value : Json.Value) (name : String) (nullable : Bool) : Prop :=
  Lawful value nullable (fun n : ℤ => 1 ≤ n) (rowId value name nullable)

/-- The law of `number`. -/
def NumberLaw (value : Json.Value) (name : String) (nullable : Bool) (minimum : Option Double) :
    Prop :=
  Lawful value nullable (fun x : Double => x.isFinite = true ∧ ∀ m ∈ minimum, x.lt m = false)
    (number value name nullable minimum)

/-- The law of `boolean`. -/
def BooleanLaw (value : Json.Value) (name : String) : Prop :=
  LawfulValue (fun b => value = .bool b) (boolean value name)

/-- The law of `choice`. -/
def ChoiceLaw (value : Json.Value) (name : String) (options : List String) (nullable : Bool) :
    Prop :=
  Lawful value nullable (fun out => ∃ s ∈ options, out = codes s.toList)
    (choice value name options nullable)

/-- The law of `timestamp`. -/
def TimestampLaw (value : Json.Value) (name : String) (nullable : Bool) : Prop :=
  Lawful value nullable (fun t : DateTime => t.offset.isSome = true) (timestamp value name nullable)

/-- The law of `calendar_date`. -/
def CalendarDateLaw (value : Json.Value) (name : String) (nullable : Bool) : Prop :=
  Lawful value nullable (fun _ : Date => True) (calendarDate value name nullable)

/-- The law of `list_value`. -/
def ListValueLaw (value : Json.Value) (name : String) : Prop :=
  LawfulValue (fun items => value = .array items) (listValue value name)

/-- Every validator, on every value and with all its settings. -/
def ValidatorsLaw : Prop :=
  ∀ (value : Json.Value) (name : String) (nullable : Bool) (maxLen minimum : Option ℤ)
    (floor : Option Double) (options : List String),
    TextLaw value name nullable maxLen ∧ IntegerLaw value name nullable minimum ∧
    RowIdLaw value name nullable ∧ NumberLaw value name nullable floor ∧
    BooleanLaw value name ∧ ChoiceLaw value name options nullable ∧
    TimestampLaw value name nullable ∧ CalendarDateLaw value name nullable ∧
    ListValueLaw value name

/-! ## When it holds -/

/-- A text that is longer than the limit meets a limit that can be written. -/
def LimitPrintable (value : Json.Value) (maxLen : Option ℤ) : Prop :=
  ∀ points, value = .text points → stripPoints points ≠ [] →
    ∀ m ∈ maxLen, m < (stripPoints points).length → Printable m

/-- At most one minus and decimal digits, not too many. -/
def SpellsInt (s : String) : Prop :=
  s.toList.length ≤ (s.toList.dropWhile fun c => c = '-').length + 1 ∧
    (s.toList.dropWhile fun c => c = '-').all isDecimal = true ∧
    (s.toList.dropWhile fun c => c = '-').length ≤ Json.maxIntDigits

/-- A text that passes for digits spells an integer. -/
def DigitsSpell (value : Json.Value) : Prop :=
  ∀ points, value = .text points → isDigitText points = true →
    SpellsInt (strip (pointsText points))

/-- The whole number that a value is or spells. -/
def wholeOf : Json.Value → Option ℤ
  | .int n => some n
  | .float (.fin x) => if x.den = 1 then some x.num else none
  | .text points =>
      if isDigitText points then (intOfText (strip (pointsText points))).toOption else none
  | _ => none

/-- A number under the minimum meets a minimum that can be written. -/
def MinimumPrintable (value : Json.Value) (minimum : Option ℤ) : Prop :=
  ∀ n ∈ wholeOf value, ∀ m ∈ minimum, n < m → Printable m

/-- An integer is not beyond the doubles. -/
def InDoubles (value : Json.Value) : Prop := ∀ n, value = .int n → (nearest n).isInf = false

/-! ## Texts of digits -/

theorem not_isDigit_sign : isDigit '-' = false ∧ isDigit '+' = false ∧ isDigit '_' = false := by
  decide

/-- Decimal digits are all taken; another digit stops them. -/
theorem takeDigits_of_isDigit_all (after : Bool) {ds : List Char} (h : ds.all isDigit = true) :
    if ds.all isDecimal = true then
      (takeDigits after ds).1.length = ds.length ∧ (takeDigits after ds).2 = []
    else (takeDigits after ds).2 ≠ [] := by
  induction ds generalizing after with
  | nil => exact ⟨rfl, rfl⟩
  | cons c ds ih =>
    rw [List.all_cons, Bool.and_eq_true] at h
    have hrest := ih true h.2
    rw [takeDigits, List.all_cons]
    cases hc : decimalValue c with
    | some d =>
      have hdecimal : isDecimal c = true := by rw [isDecimal, hc, Option.isSome_some]
      rw [hdecimal, Bool.true_and]
      by_cases hall : ds.all isDecimal = true
      · rw [if_pos hall] at hrest ⊢
        exact ⟨congrArg Nat.succ hrest.1, hrest.2⟩
      · rw [if_neg hall] at hrest ⊢
        exact hrest
    | none =>
      have hdecimal : isDecimal c = false := by rw [isDecimal, hc, Option.isSome_none]
      have hunderscore : c ≠ '_' := by
        rintro rfl
        rw [not_isDigit_sign.2.2] at h
        exact Bool.false_ne_true h.1
      rw [hdecimal, Bool.false_and, if_neg Bool.false_ne_true]
      dsimp only
      rw [if_neg fun hu => hunderscore hu.1]
      exact List.cons_ne_nil c ds

theorem parseInt_isSome_iff {s : String} {neg : Bool} {ds : List Char}
    (hsign : takeSign (strip s).toList = (neg, ds)) :
    (parseInt s).isSome = true ↔ (takeDigits false ds).1 ≠ [] ∧ (takeDigits false ds).2 = [] := by
  rw [parseInt, hsign]
  dsimp only
  rcases takeDigits false ds with ⟨_ | ⟨v, vs⟩, _ | ⟨c, rest⟩⟩ <;> simp

theorem intOfText_ok_iff_parse {s : String} {neg : Bool} {ds : List Char}
    (hsign : takeSign (strip s).toList = (neg, ds)) :
    (∃ n, intOfText s = .ok n) ↔ (takeDigits false ds).1.length ≤ Json.maxIntDigits ∧
      (takeDigits false ds).1 ≠ [] ∧ (takeDigits false ds).2 = [] := by
  rw [← parseInt_isSome_iff hsign, intOfText, hsign]
  dsimp only
  by_cases hlong : Json.maxIntDigits < (takeDigits false ds).1.length
  · rw [if_pos hlong]
    simp [hlong]
  · rw [if_neg hlong]
    cases parseInt s <;> simp [orValueError, not_lt.1 hlong]

/-- One minus is a sign; a second one is in the way of the digits. -/
theorem takeSign_dashes {cs : List Char} (hne : cs.dropWhile (fun c => c = '-') ≠ [])
    (h : (cs.dropWhile fun c => c = '-').all isDigit = true) :
    (∃ neg, takeSign cs = (neg, cs.dropWhile fun c => c = '-') ∧
      cs.length ≤ (cs.dropWhile fun c => c = '-').length + 1) ∨
    ∃ neg rest, takeSign cs = (neg, '-' :: rest) ∧
      ¬ cs.length ≤ (cs.dropWhile fun c => c = '-').length + 1 := by
  rcases cs with _ | ⟨c, cs⟩
  · exact absurd rfl hne
  by_cases hc : c = '-'
  · subst hc
    rw [List.dropWhile_cons_of_pos (by decide)] at hne h ⊢
    rcases cs with _ | ⟨d, cs⟩
    · exact absurd rfl hne
    by_cases hd : d = '-'
    · subst hd
      rw [List.dropWhile_cons_of_pos (by decide)]
      have hle := (List.dropWhile_suffix (fun c => decide (c = '-')) (l := cs)).length_le
      refine .inr ⟨true, cs, rfl, ?_⟩
      simp only [List.length_cons]
      omega
    · rw [List.dropWhile_cons_of_neg (by simpa using hd)]
      exact .inl ⟨true, rfl, le_rfl⟩
  · rw [List.dropWhile_cons_of_neg (by simpa using hc)] at h ⊢
    refine .inl ⟨false, ?_, Nat.le_succ _⟩
    rw [takeSign]
    · intro rest heq
      exact hc (List.cons.inj heq).1
    · intro rest heq
      rw [(List.cons.inj heq).1, List.all_cons, not_isDigit_sign.2.1] at h
      cases h

/-- `int` takes a text of digits that spells an integer. -/
theorem intOfText_ok_iff {s : String} (hstrip : strip s = s)
    (hne : s.toList.dropWhile (fun c => c = '-') ≠ [])
    (h : (s.toList.dropWhile fun c => c = '-').all isDigit = true) :
    (∃ n, intOfText s = .ok n) ↔ SpellsInt s := by
  rw [SpellsInt]
  rcases takeSign_dashes hne h with ⟨neg, hsign, hlength⟩ | ⟨neg, rest, hsign, hlength⟩
  · have htake := takeDigits_of_isDigit_all false h
    have hsign' : takeSign (strip s).toList = (neg, s.toList.dropWhile fun c => c = '-') := by
      rw [hstrip, hsign]
    rw [intOfText_ok_iff_parse hsign']
    by_cases hall : (s.toList.dropWhile fun c => c = '-').all isDecimal = true
    · rw [if_pos hall] at htake
      have hdigits : (takeDigits false (s.toList.dropWhile fun c => c = '-')).1 ≠ [] := by
        rw [← List.length_pos_iff, htake.1]
        exact List.length_pos_iff.2 hne
      rw [htake.1]
      exact ⟨fun hok => ⟨hlength, hall, hok.1⟩, fun hok => ⟨hok.2.2, hdigits, htake.2⟩⟩
    · rw [if_neg hall] at htake
      exact ⟨fun hok => absurd hok.2.2 htake, fun hok => absurd hok.2.1 hall⟩
  · have htake : takeDigits false ('-' :: rest) = ([], '-' :: rest) := by
      rw [takeDigits, show decimalValue '-' = none by decide]
      rfl
    have hsign' : takeSign (strip s).toList = (neg, '-' :: rest) := by rw [hstrip, hsign]
    rw [intOfText_ok_iff_parse hsign', htake]
    exact ⟨fun hok => absurd rfl hok.2.1, fun hok => absurd hok.1 hlength⟩

theorem intOfText_strip_ok_iff {points : List ℕ} (h : isDigitText points = true) :
    (∃ n, intOfText (strip (pointsText points)) = .ok n) ↔
      SpellsInt (strip (pointsText points)) := by
  unfold isDigitText at h
  simp only [decide_eq_true_eq] at h
  exact intOfText_ok_iff (strip_strip _) h.1 h.2

/-! ## Messages and limits -/

section Laws

variable {α : Type} {value : Json.Value} {name : String} {nullable : Bool} {wellFormed : α → Prop}

theorem lawful_refuseWith_iff (before after : String) (n : ℤ) :
    Lawful value nullable wellFormed (refuseWith name before n after) ↔ Printable n := by
  unfold refuseWith intText
  by_cases hn : Printable n
  · rw [if_pos hn]
    exact ⟨fun _ => hn, fun _ => trivial⟩
  · rw [if_neg hn]
    exact ⟨fun h => h.elim, fun h => absurd h hn⟩

theorem lawful_null (message : String) :
    Lawful (.null) nullable wellFormed
      (if nullable then .ok none else refuse name message) := by
  by_cases hn : nullable = true
  · rw [if_pos hn]
    exact ⟨hn, rfl⟩
  · rw [if_neg hn]
    trivial

theorem lawful_bounded_iff (minimum : Option ℤ) (n : ℤ) :
    Lawful value nullable (fun n : ℤ => ∀ m ∈ minimum, m ≤ n) (bounded name minimum n) ↔
      ∀ m ∈ minimum, n < m → Printable m := by
  unfold bounded
  cases minimum with
  | none => simp [Lawful]
  | some m =>
    dsimp only
    simp only [Option.mem_some_iff, forall_eq']
    by_cases hn : n < m
    · rw [if_pos hn, lawful_refuseWith_iff]
      exact ⟨fun h _ => h, fun h => h hn⟩
    · rw [if_neg hn]
      exact ⟨fun _ h => absurd h hn, fun _ => not_lt.1 hn⟩

end Laws

/-! ## Texts -/

theorem text_law_iff (value : Json.Value) (name : String) (nullable : Bool) (maxLen : Option ℤ) :
    TextLaw value name nullable maxLen ↔ LimitPrintable value maxLen := by
  unfold TextLaw LimitPrintable text
  cases value with
  | null => exact ⟨fun _ points h => Json.Value.noConfusion h, fun _ => lawful_null _⟩
  | text points =>
    dsimp only
    simp only [Json.Value.text.injEq, forall_eq']
    by_cases hblank : stripPoints points = []
    · rw [if_pos hblank]
      refine ⟨fun _ h => absurd hblank h, fun _ => ?_⟩
      by_cases hn : nullable = true
      · rw [if_pos hn]
        trivial
      · rw [if_neg hn]
        trivial
    · rw [if_neg hblank]
      have hformed : ∀ limit : Option ℤ, (∀ m ∈ limit, ((stripPoints points).length : ℤ) ≤ m) →
          WellFormedText (.text points) limit (stripPoints points) := fun limit hlimit =>
        ⟨⟨points, rfl, rfl⟩, hblank, stripPoints_stripPoints points, hlimit⟩
      cases maxLen with
      | none =>
        exact ⟨fun _ _ m hm => absurd hm (by simp), fun _ => hformed none (by simp)⟩
      | some m =>
        dsimp only
        simp only [Option.mem_some_iff, forall_eq']
        by_cases hlong : m < (stripPoints points).length
        · rw [if_pos hlong, lawful_refuseWith_iff]
          exact ⟨fun h _ _ => h, fun h => h hblank hlong⟩
        · rw [if_neg hlong]
          refine ⟨fun _ _ h => absurd h hlong, fun _ => hformed (some m) ?_⟩
          simpa using hlong
  | _ => exact ⟨fun _ points h => Json.Value.noConfusion h, fun _ => trivial⟩

/-- Without a limit every text is lawful. -/
theorem text_law (value : Json.Value) (name : String) (nullable : Bool) :
    TextLaw value name nullable none :=
  (text_law_iff value name nullable none).2 fun _ _ _ _ hm => absurd hm (by simp)

theorem choice_law (value : Json.Value) (name : String) (options : List String) (nullable : Bool) :
    ChoiceLaw value name options nullable := by
  have htext := text_law value name nullable
  unfold ChoiceLaw choice
  unfold TextLaw at htext
  cases hanswer : text value name nullable none with
  | error e =>
    rw [hanswer] at htext
    cases e with
    | refused reason => trivial
    | raised e => exact htext.elim
  | ok out =>
    rw [hanswer] at htext
    cases out with
    | none => exact htext
    | some out =>
      dsimp only
      by_cases hmem : out ∈ options.map fun s => codes s.toList
      · rw [if_pos hmem]
        obtain ⟨s, hs, heq⟩ := List.mem_map.1 hmem
        exact ⟨s, hs, heq.symm⟩
      · rw [if_neg hmem]
        trivial

/-! ## Numbers -/

theorem integer_law_iff (value : Json.Value) (name : String) (nullable : Bool)
    (minimum : Option ℤ) :
    IntegerLaw value name nullable minimum ↔
      DigitsSpell value ∧ MinimumPrintable value minimum := by
  unfold IntegerLaw MinimumPrintable integer
  have hspell : (∀ points, value ≠ .text points) → DigitsSpell value :=
    fun hne points heq => absurd heq (hne points)
  cases value with
  | null => exact ⟨fun _ => ⟨hspell (by simp), by simp [wholeOf]⟩, fun _ => lawful_null _⟩
  | int n =>
    rw [lawful_bounded_iff]
    simp only [wholeOf, Option.mem_some_iff, forall_eq']
    exact ⟨fun h => ⟨hspell (by simp), h⟩, fun h => h.2⟩
  | float x =>
    cases x with
    | fin x =>
      dsimp only
      by_cases hden : x.den = 1
      · rw [if_pos hden, lawful_bounded_iff]
        simp only [wholeOf, if_pos hden, Option.mem_some_iff, forall_eq']
        exact ⟨fun h => ⟨hspell (by simp), h⟩, fun h => h.2⟩
      · rw [if_neg hden]
        exact ⟨fun _ => ⟨hspell (by simp), by simp [wholeOf, hden]⟩, fun _ => trivial⟩
    | _ => exact ⟨fun _ => ⟨hspell (by simp), by simp [wholeOf]⟩, fun _ => trivial⟩
  | text points =>
    dsimp only
    simp only [DigitsSpell, Json.Value.text.injEq, forall_eq', wholeOf]
    by_cases hdigits : isDigitText points = true
    · have hok := intOfText_strip_ok_iff hdigits
      simp only [if_pos hdigits]
      cases hint : intOfText (strip (pointsText points)) with
      | ok n =>
        rw [hint] at hok
        dsimp only
        rw [lawful_bounded_iff]
        simp only [Except.toOption, Option.mem_some_iff, forall_eq']
        exact ⟨fun h => ⟨fun _ => hok.1 ⟨n, rfl⟩, h⟩, fun h => h.2⟩
      | error e =>
        rw [hint] at hok
        have hnot : ¬ SpellsInt (strip (pointsText points)) := by
          intro hspells
          obtain ⟨n, hn⟩ := hok.2 hspells
          cases hn
        exact ⟨fun h => h.elim, fun h => absurd (h.1 hdigits) hnot⟩
    · simp only [if_neg hdigits]
      exact ⟨fun _ => ⟨fun h => absurd h hdigits, by simp⟩, fun _ => trivial⟩
  | _ => exact ⟨fun _ => ⟨hspell (by simp), by simp [wholeOf]⟩, fun _ => trivial⟩

theorem printable_one : Printable 1 := by decide

theorem rowId_law_iff (value : Json.Value) (name : String) (nullable : Bool) :
    RowIdLaw value name nullable ↔ DigitsSpell value := by
  have hinteger := integer_law_iff value name nullable (some 1)
  have hsame : (fun n : ℤ => ∀ m ∈ some (1 : ℤ), m ≤ n) = fun n : ℤ => 1 ≤ n := by
    funext n
    simp
  have hminimum : MinimumPrintable value (some 1) := by
    intro n _ m hm _
    obtain rfl := Option.some.inj hm
    exact printable_one
  rw [IntegerLaw, hsame] at hinteger
  exact hinteger.trans ⟨fun h => h.1, fun h => ⟨h, hminimum⟩⟩

theorem lawful_finiteFrom {value : Json.Value} {name : String} {nullable : Bool}
    (minimum : Option Double) (out : Double) :
    Lawful value nullable
      (fun x : Double => x.isFinite = true ∧ ∀ m ∈ minimum, x.lt m = false)
      (finiteFrom name minimum out) := by
  unfold finiteFrom
  by_cases hfinite : out.isFinite = false
  · rw [if_pos hfinite]
    trivial
  · rw [if_neg hfinite]
    rw [Bool.not_eq_false] at hfinite
    cases minimum with
    | none => exact ⟨hfinite, by simp⟩
    | some m =>
      dsimp only
      by_cases hlt : out.lt m = true
      · rw [if_pos hlt]
        trivial
      · rw [if_neg hlt]
        exact ⟨hfinite, by simpa using hlt⟩

theorem number_law_iff (value : Json.Value) (name : String) (nullable : Bool)
    (minimum : Option Double) : NumberLaw value name nullable minimum ↔ InDoubles value := by
  unfold NumberLaw InDoubles number
  cases value with
  | null => exact ⟨fun _ n h => Json.Value.noConfusion h, fun _ => lawful_null _⟩
  | int n =>
    dsimp only
    simp only [Json.Value.int.injEq, forall_eq']
    rw [floatOf]
    by_cases hinf : (nearest n).isInf = true
    · rw [if_pos hinf]
      exact ⟨fun h => h.elim, fun h => absurd hinf (by simp [h])⟩
    · rw [if_neg hinf]
      exact ⟨fun _ => by simpa using hinf, fun _ => lawful_finiteFrom minimum _⟩
  | float x =>
    exact ⟨fun _ n h => Json.Value.noConfusion h, fun _ => lawful_finiteFrom minimum x⟩
  | _ => exact ⟨fun _ n h => Json.Value.noConfusion h, fun _ => trivial⟩

/-! ## The others -/

theorem boolean_law (value : Json.Value) (name : String) : BooleanLaw value name := by
  cases value with
  | bool b => exact rfl
  | _ => trivial

theorem withUtc_aware (t : DateTime) : (withUtc t).offset.isSome = true := by
  unfold withUtc
  by_cases haware : t.offset.isSome = true
  · rw [if_pos haware]
    exact haware
  · rw [if_neg haware]
    rfl

theorem ofUtcMicros_aware {micros : ℤ} {t : DateTime} (h : DateTime.ofUtcMicros micros = some t) :
    t.offset.isSome = true := by
  obtain ⟨date, -, rfl⟩ := Option.map_eq_some_iff.1 h
  rfl

theorem timestamp_law (value : Json.Value) (name : String) (nullable : Bool) :
    TimestampLaw value name nullable := by
  have hunix : ∀ (o : Option Double) t, o.bind DateTime.fromTimestampUtc = some t →
      t.offset.isSome = true := by
    intro o t ht
    obtain ⟨x, -, hx⟩ := Option.bind_eq_some_iff.1 ht
    obtain ⟨micros, -, hmicros⟩ := Option.bind_eq_some_iff.1 hx
    exact ofUtcMicros_aware hmicros
  unfold TimestampLaw timestamp
  cases value with
  | null => exact lawful_null _
  | int n =>
    dsimp only
    split
    case h_1 t ht => exact hunix _ t ht
    case h_2 => trivial
  | float x =>
    dsimp only
    split
    case h_1 t ht => exact hunix _ t ht
    case h_2 => trivial
  | text points =>
    dsimp only
    split
    · trivial
    · split
      · exact withUtc_aware _
      · trivial
  | _ => trivial

theorem calendarDate_law (value : Json.Value) (name : String) (nullable : Bool) :
    CalendarDateLaw value name nullable := by
  unfold CalendarDateLaw calendarDate
  cases value with
  | null => exact lawful_null _
  | text points =>
    dsimp only
    split
    · trivial
    · trivial
  | _ => trivial

theorem listValue_law (value : Json.Value) (name : String) : ListValueLaw value name := by
  cases value with
  | array items => exact rfl
  | _ => trivial

/-- Each validator is lawful exactly when its conversion takes what its guard lets through and the
limit it has to name can be written. -/
theorem validators_iff (value : Json.Value) (name : String) (nullable : Bool)
    (maxLen minimum : Option ℤ) (floor : Option Double) (options : List String) :
    (TextLaw value name nullable maxLen ↔ LimitPrintable value maxLen) ∧
    (IntegerLaw value name nullable minimum ↔
      DigitsSpell value ∧ MinimumPrintable value minimum) ∧
    (RowIdLaw value name nullable ↔ DigitsSpell value) ∧
    (NumberLaw value name nullable floor ↔ InDoubles value) ∧
    BooleanLaw value name ∧ ChoiceLaw value name options nullable ∧
    TimestampLaw value name nullable ∧ CalendarDateLaw value name nullable ∧
    ListValueLaw value name :=
  ⟨text_law_iff value name nullable maxLen, integer_law_iff value name nullable minimum,
    rowId_law_iff value name nullable, number_law_iff value name nullable floor,
    boolean_law value name, choice_law value name options nullable,
    timestamp_law value name nullable, calendarDate_law value name nullable,
    listValue_law value name⟩

/-- A superscript two passes for digits, and `int` does not take it. -/
theorem not_validatorsLaw_superscript : ¬ ValidatorsLaw := by
  intro h
  have hinteger := (h (.text [178]) "qty" false none none none []).2.1
  have hraised : integer (.text [178]) "qty" false none = .error (.raised .valueError) := by
    decide +kernel
  rw [IntegerLaw, hraised] at hinteger
  exact hinteger

end Portfolio.WriteSupport
