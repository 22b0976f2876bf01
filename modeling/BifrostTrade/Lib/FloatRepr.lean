import BifrostTrade.Lib.Text

/-!
# The text of a double

`repr` of a float: the shortest decimal whose nearest double it is, and of those the closest.
-/

namespace Py

/-- A decimal: digits and a power of ten. -/
structure Decimal where
  digits : ℕ
  exponent : ℤ
  deriving DecidableEq

/-- The number that a decimal stands for. -/
def Decimal.value (d : Decimal) : ℚ := d.digits * (10 : ℚ) ^ d.exponent

/-- The decimals of a last place around a positive number, the closer first and of two as close
the even one. -/
def decimalsAround (x : ℚ) (exponent : ℤ) : List Decimal :=
  let low := ⌊x / (10 : ℚ) ^ exponent⌋₊
  let rest := x / (10 : ℚ) ^ exponent - low
  if rest < 1 / 2 ∨ rest = 1 / 2 ∧ low % 2 = 0 then [⟨low, exponent⟩, ⟨low + 1, exponent⟩]
  else [⟨low + 1, exponent⟩, ⟨low, exponent⟩]

/-- The decimals to try for a positive number: one digit first, seventeen last. -/
def decimalsToTry (x : ℚ) : List Decimal :=
  (List.range 17).flatMap fun k => decimalsAround x (Int.log 10 x - k)

/-- The shortest decimal that is read as the positive number. -/
def shortDecimal (x : ℚ) : Decimal :=
  ((decimalsToTry x).find? fun d => nearest d.value = .fin x).getD ⟨0, 0⟩

/-- A decimal without the zeros at its end. -/
def Decimal.digitChars (d : Decimal) : List Char :=
  (Nat.toDigits 10 d.digits).rdropWhile (· = '0')

/-- The place of the first digit: its power of ten. -/
def Decimal.place (d : Decimal) : ℤ := d.exponent + (Nat.toDigits 10 d.digits).length - 1

/-- The digits with a point, or with an exponent beyond sixteen digits. -/
def Decimal.text (d : Decimal) : List Char :=
  let ds := d.digitChars
  let place := d.place
  if 0 ≤ place ∧ place < 16 then
    let whole := ds.take (place.toNat + 1)
    let frac := ds.drop (place.toNat + 1)
    whole ++ List.replicate (place.toNat + 1 - whole.length) '0' ++
      '.' :: if frac = [] then ['0'] else frac
  else if -4 ≤ place ∧ place < 0 then
    '0' :: '.' :: List.replicate (-place - 1).toNat '0' ++ ds
  else
    let frac := ds.drop 1
    ds.take 1 ++ (if frac = [] then [] else '.' :: frac) ++
      'e' :: (if place < 0 then '-' else '+') :: natText 2 place.natAbs

/-- `repr(x)`. -/
def reprFloat : Double → String
  | .posInf => "inf"
  | .negInf => "-inf"
  | .nan => "nan"
  | .fin x =>
      if x = 0 then "0.0"
      else String.ofList ((if x < 0 then ['-'] else []) ++ (shortDecimal |x|).text)

example : reprFloat (.fin 80) = "80.0" ∧ reprFloat (.fin (165 / 2)) = "82.5" := by decide +kernel

theorem Decimal.text_ne_nil (d : Decimal) : d.text ≠ [] := by
  unfold Decimal.text
  dsimp only
  split_ifs <;> simp

theorem reprFloat_ne_empty (x : Double) : (reprFloat x).toList ≠ [] := by
  cases x with
  | fin x =>
    rw [reprFloat]
    split_ifs
    · simp
    · simp
    · simp [Decimal.text_ne_nil]
  | _ => simp [reprFloat]

theorem isNumeric_of_mem_text (d : Decimal) : ∀ c ∈ d.text, IsNumeric c := by
  have hdigits : ∀ c ∈ d.digitChars, IsNumeric c := fun c hc =>
    .inl (isDigit_of_mem_toDigits c ((List.rdropWhile_prefix _ _).subset hc))
  have htake : ∀ k, ∀ c ∈ d.digitChars.take k, IsNumeric c :=
    fun _ c hc => hdigits c (List.mem_of_mem_take hc)
  have hdrop : ∀ k, ∀ c ∈ d.digitChars.drop k, IsNumeric c :=
    fun _ c hc => hdigits c (List.mem_of_mem_drop hc)
  have hzero : IsNumeric '0' := .inl (by decide)
  have hzeros : ∀ k, ∀ c ∈ List.replicate k '0', IsNumeric c :=
    fun _ c hc => List.eq_of_mem_replicate hc ▸ hzero
  have hnat : ∀ w n, ∀ c ∈ natText w n, IsNumeric c :=
    fun _ _ _ hc => .inl (isDigit_of_mem_natText hc)
  have hnil : ∀ c ∈ ([] : List Char), IsNumeric c := fun c hc => absurd hc List.not_mem_nil
  have hsign : ∀ c ∈ ['-', '+', '.', 'e'], IsNumeric c := fun c hc => .inr hc
  unfold Decimal.text
  dsimp only
  split_ifs <;>
    simp only [List.forall_mem_append, List.forall_mem_cons] <;>
    repeat' apply And.intro
  all_goals first
    | exact htake _
    | exact hdrop _
    | exact hzeros _
    | exact hnat _ _
    | exact hdigits
    | exact hzero
    | exact hsign _ (by decide)
    | exact hnil

theorem ascii_of_isNumeric {c : Char} (h : IsNumeric c) : c.toNat < 128 ∧ 31 < c.toNat := by
  have hother : ∀ c ∈ ['-', '+', '.', 'e'], c.toNat < 128 ∧ 31 < c.toNat :=
    forall_of_all (by decide)
  rcases h with h | h
  · obtain ⟨d, rfl⟩ := exists_digit h
    revert d
    decide
  · exact hother c h

theorem isNumeric_reprFloat (x : ℚ) : ∀ c ∈ (reprFloat (.fin x)).toList, IsNumeric c := by
  rw [reprFloat]
  split_ifs with hzero hneg
  · exact List.forall_mem_cons.2 ⟨.inl (by decide), List.forall_mem_cons.2 ⟨.inr (by decide),
      List.forall_mem_cons.2 ⟨.inl (by decide), fun c hc => absurd hc List.not_mem_nil⟩⟩⟩
  · rw [String.toList_ofList, List.forall_mem_append]
    exact ⟨fun c hc => .inr (by rw [List.mem_singleton.1 hc]; decide), isNumeric_of_mem_text _⟩
  · rw [String.toList_ofList, List.nil_append]
    exact isNumeric_of_mem_text _

theorem pipe_not_mem_reprFloat (x : ℚ) : '|' ∉ (reprFloat (.fin x)).toList := by
  intro h
  rcases isNumeric_reprFloat x _ h with h | h <;> exact absurd h (by decide)

theorem reprFloat_ne_none (x : ℚ) : reprFloat (.fin x) ≠ "None" := by
  intro h
  have hmem : 'N' ∈ (reprFloat (.fin x)).toList := by
    rw [h]
    decide
  rcases isNumeric_reprFloat x _ hmem with h | h <;> exact absurd h (by decide)

/-- The text of a double is ASCII. -/
theorem ascii_reprFloat (x : Double) :
    ∀ c ∈ (reprFloat x).toList, c.toNat < 128 ∧ 31 < c.toNat := by
  cases x with
  | fin x => exact fun c hc => ascii_of_isNumeric (isNumeric_reprFloat x c hc)
  | _ =>
    rw [reprFloat]
    exact forall_of_all (by decide)

end Py
