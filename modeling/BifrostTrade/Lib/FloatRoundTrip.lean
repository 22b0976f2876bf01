import BifrostTrade.Lib.Binary64
import BifrostTrade.Lib.FloatRepr

/-!
# Reading the text of a double back

Seventeen digits are closer to a double than half the way to the next one (`nearest_of_near`), so
`repr` always finds a decimal that is read as it, and `float(repr(x))` is `x`
(`readFloat_reprFloat`).
-/

namespace Py

/-! ## Close numbers -/

theorem round_eq_of_abs_lt {y : ℚ} {k : ℤ} (h : |y - k| < 1 / 2) : round y = k := by
  have hround := abs_sub_round_le y
  rw [abs_lt] at h
  rw [abs_le] at hround
  have hup : (round y : ℚ) < k + 1 := by linarith
  have hdown : (k : ℚ) < round y + 1 := by linarith
  have hup : round y < k + 1 := by exact_mod_cast hup
  have hdown : k < round y + 1 := by exact_mod_cast hdown
  omega

/-- Every multiple of a place is one of each finer place. -/
theorem two_zpow_eq_mul {e f : ℤ} (h : e ≤ f) : ∃ k : ℤ, (2 : ℚ) ^ f = k * 2 ^ e := by
  obtain ⟨j, hj⟩ := Int.eq_ofNat_of_zero_le (sub_nonneg.2 h)
  refine ⟨2 ^ j, ?_⟩
  push_cast
  rw [← zpow_natCast, ← zpow_add₀ (by norm_num)]
  congr 1
  omega

theorem zpow_log_sub_le {d : ℚ} : (2 : ℚ) ^ (Int.log 2 |d| - 52) ≤ 2 ^ lastPlace d :=
  zpow_le_zpow_right₀ (by norm_num) (le_max_left ..)

theorem abs_lt_lastPlace (x : ℚ) : |x| < 2 ^ 53 * 2 ^ lastPlace x := by
  have hsplit : (2 : ℚ) ^ (Int.log 2 |x| + 1) = 2 ^ 53 * 2 ^ (Int.log 2 |x| - 52) := by
    rw [← zpow_natCast, ← zpow_add₀ (by norm_num)]
    congr 1
    push_cast
    omega
  calc |x| < 2 ^ (Int.log 2 |x| + 1) := lt_two_zpow_log x
    _ = 2 ^ 53 * 2 ^ (Int.log 2 |x| - 52) := hsplit
    _ ≤ 2 ^ 53 * 2 ^ lastPlace x := by
        have := @zpow_log_sub_le x
        linarith

/-- A number this near a double is less than half of its own last place from it. -/
theorem near_lastPlace {x d : ℚ} (hx : 0 < x) (hd : |d - x| ≤ x / (2 * 10 ^ 16)) :
    |d - x| < 1 / 2 * 2 ^ lastPlace d := by
  obtain ⟨hlow, hhigh⟩ := abs_le.1 hd
  have hpos : 0 < d := by linarith
  have hlt := abs_lt_lastPlace d
  rw [abs_of_pos hpos] at hlt
  have hplace := two_zpow_pos (lastPlace d)
  rw [abs_lt]
  constructor <;> linarith

/-- A double that is this near is a multiple of the last place. -/
theorem multiple_of_near {x d : ℚ} (hx : 0 < x) (hself : nearestMultiple x = x)
    (hd : |d - x| ≤ x / (2 * 10 ^ 16)) : ∃ k : ℤ, x = k * 2 ^ lastPlace d := by
  obtain ⟨hlow, hhigh⟩ := abs_le.1 hd
  have hpos : 0 < d := by linarith
  have hmult : x = round (x / 2 ^ lastPlace x) * 2 ^ lastPlace x := hself.symm
  generalize round (x / 2 ^ lastPlace x) = m at hmult
  have hplace := two_zpow_pos (lastPlace x)
  by_cases hle : lastPlace d ≤ lastPlace x
  · obtain ⟨k, hk⟩ := two_zpow_eq_mul hle
    exact ⟨m * k, by rw [hmult, hk]; push_cast; ring⟩
  · -- the number has one binary digit more, and the power of two between is a last place away
    exfalso
    have hlog : Int.log 2 x < Int.log 2 d ∧ lastPlace x ≤ Int.log 2 d := by
      have hx' := abs_of_pos hx
      have hd' := abs_of_pos hpos
      unfold lastPlace at hle ⊢
      rw [hx', hd'] at hle
      rw [hx']
      omega
    have hbelow : x < 2 ^ Int.log 2 d := by
      have hself' := lt_two_zpow_log x
      rw [abs_of_pos hx] at hself'
      exact hself'.trans_le (zpow_le_zpow_right₀ (by norm_num) hlog.1)
    have habove : (2 : ℚ) ^ Int.log 2 d ≤ d := by
      exact_mod_cast Int.zpow_log_le_self (by decide) hpos
    obtain ⟨k, hk⟩ := two_zpow_eq_mul hlog.2
    rw [hk] at hbelow habove
    have hkm : m < k := by
      have : (m : ℚ) * 2 ^ lastPlace x < k * 2 ^ lastPlace x := hmult ▸ hbelow
      exact_mod_cast lt_of_mul_lt_mul_right this hplace.le
    have hstep : (m : ℚ) + 1 ≤ k := by exact_mod_cast hkm
    have hgap : x + 2 ^ lastPlace x ≤ d := by
      calc x + 2 ^ lastPlace x = (m + 1) * 2 ^ lastPlace x := by rw [add_mul, one_mul, ← hmult]
        _ ≤ k * 2 ^ lastPlace x := mul_le_mul_of_nonneg_right hstep hplace.le
        _ ≤ d := habove
    have hsmall := abs_lt_lastPlace x
    rw [abs_of_pos hx] at hsmall
    linarith

/-- A double is the nearest of every number within a part in `2 * 10 ^ 16` of it. -/
theorem nearest_of_near {x d : ℚ} (hx : 0 < x) (hself : nearest x = .fin x)
    (hd : |d - x| ≤ x / (2 * 10 ^ 16)) : nearest d = .fin x := by
  obtain ⟨hmultiple, hlt⟩ := eq_of_nearest hself
  obtain ⟨k, hk⟩ := multiple_of_near hx hmultiple.symm hd
  have hplace := two_zpow_pos (lastPlace d)
  have hround : round (d / 2 ^ lastPlace d) = k := by
    refine round_eq_of_abs_lt ?_
    have hdiff : d / 2 ^ lastPlace d - k = (d - x) / 2 ^ lastPlace d := by
      rw [hk]
      field_simp
    rw [hdiff, abs_div, abs_of_pos hplace, div_lt_iff₀ hplace]
    exact near_lastPlace hx hd
  have hnearest : nearestMultiple d = x := by rw [nearestMultiple, hround, ← hk]
  obtain ⟨hlow, hhigh⟩ := abs_lt.1 hlt
  rw [nearest, hnearest, if_neg hhigh.not_ge, if_neg hlow.not_ge]

/-! ## The decimal that is found -/

theorem exists_decimal_near {x : ℚ} (hx : 0 ≤ x) (e : ℤ) :
    ∃ d ∈ decimalsAround x e, |d.value - x| ≤ (10 : ℚ) ^ e / 2 := by
  have hpos : (0 : ℚ) < 10 ^ e := zpow_pos (by norm_num) e
  have hfloor := Nat.floor_le (div_nonneg hx hpos.le)
  have hlt := Nat.lt_floor_add_one (x / (10 : ℚ) ^ e)
  have hscale : ∀ n : ℕ, ((n : ℚ) - x / 10 ^ e) * 10 ^ e = n * 10 ^ e - x := fun n => by
    field_simp
  have hclose : ∀ n : ℕ, |(n : ℚ) - x / 10 ^ e| ≤ 1 / 2 →
      |(⟨n, e⟩ : Decimal).value - x| ≤ (10 : ℚ) ^ e / 2 := by
    intro n hn
    rw [Decimal.value, ← hscale n, abs_mul, abs_of_pos hpos]
    linarith [mul_le_mul_of_nonneg_right hn hpos.le]
  unfold decimalsAround
  dsimp only
  split_ifs with hcond
  · refine ⟨_, List.mem_cons_self .., hclose _ ?_⟩
    have hhalf : x / (10 : ℚ) ^ e - ⌊x / (10 : ℚ) ^ e⌋₊ ≤ 1 / 2 := by
      rcases hcond with h | h
      · exact h.le
      · exact h.1.le
    rw [abs_le]
    constructor <;> linarith
  · refine ⟨_, List.mem_cons_self .., hclose _ ?_⟩
    have hhalf : 1 / 2 ≤ x / (10 : ℚ) ^ e - ⌊x / (10 : ℚ) ^ e⌋₊ :=
      not_lt.1 fun h => hcond (.inl h)
    push_cast
    rw [abs_le]
    constructor <;> linarith

/-- The decimal of a double is read as it. -/
theorem nearest_shortDecimal {x : ℚ} (hx : 0 < x) (hself : nearest x = .fin x) :
    nearest (shortDecimal x).value = .fin x := by
  obtain ⟨d, hd, hclose⟩ := exists_decimal_near hx.le (Int.log 10 x - 16)
  have hlog : (10 : ℚ) ^ (Int.log 10 x - 16) * 10 ^ 16 ≤ x := by
    have hle : ((10 : ℕ) : ℚ) ^ Int.log 10 x ≤ x := Int.zpow_log_le_self (by decide) hx
    rw [← zpow_natCast, ← zpow_add₀ (by norm_num)]
    simpa using hle
  have hread : nearest d.value = .fin x := by
    refine nearest_of_near hx hself (hclose.trans ?_)
    rw [div_le_div_iff₀ (by norm_num) (by norm_num)]
    linarith
  have hmem : d ∈ decimalsToTry x := List.mem_flatMap.2 ⟨16, by decide, hd⟩
  cases hfind : (decimalsToTry x).find? fun d => nearest d.value = .fin x with
  | none => exact absurd (decide_eq_true hread) (List.find?_eq_none.1 hfind d hmem)
  | some d' =>
    have hread' : nearest d'.value = .fin x := by simpa using List.find?_some hfind
    rw [shortDecimal, hfind]
    exact hread'

theorem shortDecimal_digits_ne {x : ℚ} (hx : 0 < x) (hself : nearest x = .fin x) :
    (shortDecimal x).digits ≠ 0 := by
  intro hzero
  have hread := nearest_shortDecimal hx hself
  rw [Decimal.value, hzero, Nat.cast_zero, zero_mul,
    nearest_of_lt (nearestMultiple_of_multiple (k := 0) (by simp)) (by norm_num)] at hread
  exact hx.ne (Double.fin.inj hread)

/-! ## The number that digits spell -/

/-- The number of a run of digits. -/
def charsValue (cs : List Char) : ℕ := digitsValue (cs.map fun c => c.toNat - 48)

theorem digitsValue_append_digits (ds es : List ℕ) :
    digitsValue (ds ++ es) = digitsValue ds * 10 ^ es.length + digitsValue es := by
  induction es using List.reverseRecOn with
  | nil => simp [digitsValue]
  | append_singleton es d ih =>
    rw [← List.append_assoc, digitsValue_append, ih, digitsValue_append, List.length_append,
      List.length_singleton, pow_succ]
    ring

theorem charsValue_append (cs ds : List Char) :
    charsValue (cs ++ ds) = charsValue cs * 10 ^ ds.length + charsValue ds := by
  rw [charsValue, List.map_append, digitsValue_append_digits, List.length_map]
  rfl

theorem charsValue_zeros (n : ℕ) : charsValue (List.replicate n '0') = 0 := by
  induction n with
  | zero => rfl
  | succ n ih =>
    rw [List.replicate_succ', charsValue_append, ih]
    rfl

theorem charsValue_toDigits (n : ℕ) : charsValue (Nat.toDigits 10 n) = n := digitsValue_toDigits n

theorem charsValue_concat (cs : List Char) (c : Char) :
    charsValue (cs ++ [c]) = 10 * charsValue cs + (c.toNat - 48) := by
  rw [charsValue, List.map_append, List.map_singleton, digitsValue_append]
  rfl

/-- As many digits of one number are the same digits. -/
theorem charsValue_inj {cs ds : List Char} (hcs : ∀ c ∈ cs, c.isDigit = true)
    (hds : ∀ c ∈ ds, c.isDigit = true) (hlength : cs.length = ds.length)
    (h : charsValue cs = charsValue ds) : cs = ds := by
  induction cs using List.reverseRecOn generalizing ds with
  | nil => exact (List.length_eq_zero_iff.1 hlength.symm).symm
  | append_singleton cs c ih =>
    rcases List.eq_nil_or_concat ds with rfl | ⟨ds, d, rfl⟩
    · simp at hlength
    · rw [List.concat_eq_append] at hds hlength h ⊢
      rw [List.forall_mem_append] at hcs hds
      obtain ⟨m, rfl⟩ := exists_digit (hcs.2 c (List.mem_singleton_self c))
      obtain ⟨n, rfl⟩ := exists_digit (hds.2 d (List.mem_singleton_self d))
      have hvalue : ∀ k : Fin 10, (Char.ofNat (48 + k)).toNat - 48 = k.val := by decide
      rw [charsValue_concat, charsValue_concat, hvalue, hvalue] at h
      have hlast : m = n := Fin.ext (by omega)
      rw [ih hcs.1 hds.1 (by simpa using hlength) (by omega), hlast]

theorem charsValue_natText (width n : ℕ) : charsValue (natText width n) = n := by
  show charsValue (List.replicate _ '0' ++ Nat.toDigits 10 n) = n
  rw [charsValue_append, charsValue_zeros, charsValue_toDigits, zero_mul, zero_add]

namespace Decimal

theorem isDigit_digitChars (d : Decimal) : ∀ c ∈ d.digitChars, c.isDigit = true := fun c hc =>
  isDigit_of_mem_toDigits c ((List.rdropWhile_prefix _ _).subset hc)

/-- The digits without the zeros at their end, and the zeros. -/
theorem digitChars_append_zeros (d : Decimal) :
    ∃ z, Nat.toDigits 10 d.digits = d.digitChars ++ List.replicate z '0' := by
  refine ⟨((Nat.toDigits 10 d.digits).rtakeWhile (· = '0')).length, ?_⟩
  have hzeros : (Nat.toDigits 10 d.digits).rtakeWhile (· = '0') =
      List.replicate ((Nat.toDigits 10 d.digits).rtakeWhile (· = '0')).length '0' :=
    List.eq_replicate_iff.2 ⟨rfl, fun c hc => by simpa using List.mem_rtakeWhile_imp hc⟩
  rw [← hzeros, digitChars, List.rdropWhile_append_rtakeWhile]

theorem digitChars_ne_nil {d : Decimal} (h : d.digits ≠ 0) : d.digitChars ≠ [] := by
  intro hnil
  obtain ⟨z, hz⟩ := d.digitChars_append_zeros
  rw [hnil, List.nil_append] at hz
  have hvalue := charsValue_toDigits d.digits
  rw [hz, charsValue_zeros] at hvalue
  exact h hvalue.symm

/-- A decimal is its digits with the point after the place of the first. -/
theorem value_eq (d : Decimal) :
    d.value = charsValue d.digitChars * (10 : ℚ) ^ (d.place + 1 - d.digitChars.length) := by
  obtain ⟨z, hz⟩ := d.digitChars_append_zeros
  have hdigits : (d.digits : ℚ) = charsValue d.digitChars * 10 ^ z := by
    have hvalue := charsValue_toDigits d.digits
    rw [hz, charsValue_append, charsValue_zeros, List.length_replicate, add_zero] at hvalue
    exact_mod_cast hvalue.symm
  have hplace : d.place + 1 - d.digitChars.length = z + d.exponent := by
    rw [place, hz, List.length_append, List.length_replicate]
    push_cast
    ring
  rw [value, hdigits, hplace, zpow_add₀ (by norm_num), zpow_natCast, mul_assoc]

end Decimal

/-! ## Reading digits -/

/-- What ends a run of digits. -/
def EndsDigits (cs : List Char) : Prop := ∀ c ∈ cs.head?, decimalValue c = none ∧ c ≠ '_'

theorem takeDigits_append (after : Bool) {cs rest : List Char} (hcs : ∀ c ∈ cs, c.isDigit = true)
    (hrest : EndsDigits rest) :
    takeDigits after (cs ++ rest) = (cs.map fun c => c.toNat - 48, rest) := by
  induction cs generalizing after with
  | nil =>
    cases rest with
    | nil => rfl
    | cons c rest =>
      obtain ⟨hdigit, hunder⟩ := hrest c rfl
      rw [List.nil_append, takeDigits, hdigit]
      dsimp only
      rw [if_neg fun h => hunder h.1]
      rfl
  | cons c cs ih =>
    rw [List.forall_mem_cons] at hcs
    rw [List.cons_append, takeDigits, decimalValue_of_isDigit hcs.1]
    dsimp only
    rw [ih true hcs.2, List.map_cons]

/-- Digits, perhaps a point and more digits, perhaps an exponent. -/
theorem parseDecimal_parts {whole frac tail : List Char} {e : ℤ} (hne : whole ≠ [])
    (hwhole : ∀ c ∈ whole, c.isDigit = true) (hfrac : ∀ c ∈ frac, c.isDigit = true)
    (htail : EndsDigits tail) (hpoint : tail.head? ≠ some '.') (he : parseExponent tail = some e) :
    parseDecimal (whole ++ (if frac = [] then [] else '.' :: frac) ++ tail) =
      some (charsValue (whole ++ frac) * (10 : ℚ) ^ (e - (frac.length : ℤ))) := by
  have hmap : (whole.map fun c => c.toNat - 48) ≠ [] := by simpa using hne
  by_cases hnil : frac = []
  · subst hnil
    rw [if_pos rfl, List.append_nil, parseDecimal, takeDigits_append false hwhole htail]
    dsimp only
    split
    · exact absurd rfl hpoint
    · dsimp only
      rw [if_neg fun h => hmap h.1, he]
      simp [charsValue]
  · have hdot : EndsDigits ('.' :: (frac ++ tail)) := fun c hc => by
      obtain rfl := Option.some.inj hc
      decide
    rw [if_neg hnil, List.append_assoc, List.cons_append, parseDecimal,
      takeDigits_append false hwhole hdot]
    dsimp only
    split
    case h_1 rest heq =>
      obtain rfl := (List.cons.inj heq).2
      rw [takeDigits_append false hfrac htail]
      dsimp only
      rw [if_neg fun h => hmap h.1, he, ← List.map_append]
      simp [charsValue]
    case h_2 hother => exact absurd rfl (hother _)

/-! ## What a number is read from -/

/-- A character that stands in no number. -/
structure NotNumeric (c : Char) : Prop where
  digit : decimalValue c = none
  other : c ∉ ['_', '.', 'e', 'E', '+', '-']
  space : isSpace c = false

theorem mem_takeDigits {c : Char} (hc : NotNumeric c) (after : Bool) {cs : List Char}
    (h : c ∈ cs) : c ∈ (takeDigits after cs).2 := by
  induction cs generalizing after with
  | nil => exact absurd h List.not_mem_nil
  | cons d cs ih =>
    rw [takeDigits]
    cases hd : decimalValue d with
    | some n =>
      refine ih _ ((List.mem_cons.1 h).resolve_left fun heq => ?_)
      rw [← heq, hc.digit] at hd
      cases hd
    | none =>
      dsimp only
      split_ifs with hunder
      · refine ih _ ((List.mem_cons.1 h).resolve_left fun heq => hc.other ?_)
        rw [heq, hunder.1]
        decide
      · exact h

theorem mem_takeSign {c : Char} (hc : NotNumeric c) {cs : List Char} (h : c ∈ cs) :
    c ∈ (takeSign cs).2 := by
  unfold takeSign
  split
  case h_3 => exact h
  all_goals
    refine (List.mem_cons.1 h).resolve_left fun heq => hc.other ?_
    rw [heq]
    decide

theorem not_mem_of_parseExponent {c : Char} (hc : NotNumeric c) {cs : List Char} {e : ℤ}
    (h : parseExponent cs = some e) : c ∉ cs := by
  intro hmem
  cases cs with
  | nil => exact List.not_mem_nil hmem
  | cons d cs =>
    rw [parseExponent] at h
    split_ifs at h with hd
    have htail : c ∈ cs := (List.mem_cons.1 hmem).resolve_left fun heq => hc.other (by
      rcases hd with hd | hd <;> simp [heq, hd])
    have hrest := mem_takeDigits hc false (mem_takeSign hc htail)
    dsimp only at h
    split at h
    · rename_i hsplit
      rw [hsplit] at hrest
      exact List.not_mem_nil hrest
    · cases h

theorem not_mem_of_parseDecimal {c : Char} (hc : NotNumeric c) {cs : List Char} {x : ℚ}
    (h : parseDecimal cs = some x) : c ∉ cs := by
  intro hmem
  have hrest := mem_takeDigits hc false hmem
  unfold parseDecimal at h
  dsimp only at h
  generalize (takeDigits false cs).2 = rest at h hrest
  split at h
  all_goals
    split_ifs at h
    obtain ⟨e, he, -⟩ := Option.map_eq_some_iff.1 h
    refine not_mem_of_parseExponent hc he ?_
  · refine mem_takeDigits hc false ((List.mem_cons.1 hrest).resolve_left fun heq => hc.other ?_)
    rw [heq]
    decide
  · exact hrest

/-- A text that is read as a finite number has only the characters of numbers in it. -/
theorem not_mem_of_readFloat {c : Char} (hc : NotNumeric c) {s : String} {x : ℚ}
    (h : readFloat s = some (.fin x)) : c ∉ s.toList := by
  intro hmem
  have hrest := mem_takeSign hc (mem_strip hc.space hmem)
  obtain ⟨d, hd, hx⟩ := Option.map_eq_some_iff.1 h
  rw [parseFloat] at hd
  dsimp only at hd
  split_ifs at hd
  · obtain rfl := Option.some.inj hd
    cases hx
  · obtain rfl := Option.some.inj hd
    cases hx
  · obtain rfl := Option.some.inj hd
    cases hx
  · obtain ⟨y, hy, -⟩ := Option.map_eq_some_iff.1 hd
    exact not_mem_of_parseDecimal hc hy hrest
  · obtain ⟨y, hy, -⟩ := Option.map_eq_some_iff.1 hd
    exact not_mem_of_parseDecimal hc hy hrest

/-! ## Reading the text of a decimal -/

theorem endsDigits_nil : EndsDigits [] := fun _ hc => absurd hc (by simp)

namespace Decimal

/-- An exponent as it is printed. -/
theorem parseExponent_text (place : ℤ) :
    parseExponent ('e' :: (if place < 0 then '-' else '+') :: natText 2 place.natAbs) =
      some place := by
  have hdigits : ∀ c ∈ natText 2 place.natAbs, c.isDigit = true := fun c hc =>
    isDigit_of_mem_natText hc
  have hvalue := charsValue_natText 2 place.natAbs
  have htake := takeDigits_of_isDigit false hdigits
  have hne : natText 2 place.natAbs ≠ [] := by simp [natText]
  obtain ⟨c, cs, hcs⟩ := List.exists_cons_of_ne_nil hne
  rw [charsValue, hcs] at hvalue
  rw [hcs] at htake ⊢
  rw [parseExponent, if_pos (.inl rfl)]
  by_cases hneg : place < 0
  · rw [if_pos hneg]
    simp only [takeSign, htake, List.map_cons, if_true] at hvalue ⊢
    rw [hvalue]
    exact congrArg some (by omega)
  · rw [if_neg hneg]
    simp only [takeSign, htake, List.map_cons, Bool.false_eq_true, if_false] at hvalue ⊢
    rw [hvalue]
    exact congrArg some (by omega)

/-- Digits with a point between them. -/
theorem parseDecimal_point {whole frac : List Char} (hne : whole ≠ []) (hfrac : frac ≠ [])
    (hdigits : ∀ c ∈ whole ++ frac, c.isDigit = true) :
    parseDecimal (whole ++ '.' :: frac) =
      some (charsValue (whole ++ frac) * (10 : ℚ) ^ (-(frac.length : ℤ))) := by
  rw [List.forall_mem_append] at hdigits
  have hparts := parseDecimal_parts hne hdigits.1 hdigits.2 endsDigits_nil (by simp)
    (show parseExponent [] = some 0 from rfl)
  rwa [if_neg hfrac, List.append_nil, zero_sub] at hparts

/-- The text of a decimal is read as it. -/
theorem parseDecimal_text {d : Decimal} (h : d.digits ≠ 0) :
    parseDecimal d.text = some d.value := by
  have hne := digitChars_ne_nil h
  have hdigits := d.isDigit_digitChars
  have hzeros : ∀ n, ∀ c ∈ List.replicate n '0', c.isDigit = true := fun n c hc =>
    List.eq_of_mem_replicate hc ▸ rfl
  have hlength : 1 ≤ d.digitChars.length := List.length_pos_iff.2 hne
  rw [value_eq]
  unfold text
  dsimp only
  generalize d.digitChars = ds at hne hdigits hlength
  generalize d.place = place
  by_cases hlow : 0 ≤ place ∧ place < 16
  · rw [if_pos hlow]
    by_cases hlong : ds.length ≤ place.toNat + 1
    · -- zeros up to the point, and one after it
      rw [List.drop_eq_nil_of_le hlong, if_pos rfl, List.take_of_length_le hlong,
        parseDecimal_point (by simp [hne]) (by simp)]
      · rw [charsValue_append, charsValue_append, charsValue_zeros, List.length_replicate]
        have hexp : place + 1 - ds.length = ((place.toNat + 1 - ds.length : ℕ) : ℤ) := by omega
        rw [hexp, zpow_natCast]
        simp [charsValue, digitsValue]
      · simp only [List.forall_mem_append]
        exact ⟨⟨hdigits, hzeros _⟩, by simp⟩
    · have hdrop : ds.drop (place.toNat + 1) ≠ [] := by
        rw [ne_eq, List.drop_eq_nil_iff]
        exact hlong
      have htake : (ds.take (place.toNat + 1)).length = place.toNat + 1 :=
        List.length_take_of_le (by omega)
      rw [if_neg hdrop, htake, Nat.sub_self, List.replicate_zero, List.append_nil,
        parseDecimal_point (List.ne_nil_of_length_pos (by omega)) hdrop]
      · rw [List.take_append_drop, List.length_drop]
        congr 3
        omega
      · rwa [List.take_append_drop]
  · rw [if_neg hlow]
    by_cases hsmall : -4 ≤ place ∧ place < 0
    · rw [if_pos hsmall]
      have hpoint := parseDecimal_point (List.cons_ne_nil '0' [])
        (show List.replicate (-place - 1).toNat '0' ++ ds ≠ [] by simp [hne])
        (by
          rw [List.singleton_append, List.forall_mem_cons, List.forall_mem_append]
          exact ⟨rfl, hzeros _, hdigits⟩)
      rw [List.singleton_append] at hpoint
      rw [List.cons_append, List.cons_append, hpoint, charsValue_append, charsValue_append,
        charsValue_zeros, List.length_append, List.length_replicate]
      have hexp : -(((-place - 1).toNat + ds.length : ℕ) : ℤ) = place + 1 - ds.length := by
        push_cast
        omega
      rw [hexp]
      simp [charsValue, digitsValue]
    · rw [if_neg hsmall]
      have hends : EndsDigits
          ('e' :: (if place < 0 then '-' else '+') :: natText 2 place.natAbs) := fun c hc => by
        obtain rfl := Option.some.inj hc
        decide
      have htake : ds.take 1 ≠ [] := by simp [hne]
      have hwhole : ∀ c ∈ ds.take 1, c.isDigit = true := fun c hc =>
        hdigits c (List.mem_of_mem_take hc)
      have hfrac : ∀ c ∈ ds.drop 1, c.isDigit = true := fun c hc =>
        hdigits c (List.mem_of_mem_drop hc)
      rw [parseDecimal_parts htake hwhole hfrac hends (by simp) (parseExponent_text place),
        List.take_append_drop, List.length_drop]
      congr 3
      omega

/-- A decimal starts with a digit. -/
theorem exists_cons_text {d : Decimal} (h : d.digits ≠ 0) :
    ∃ c cs, d.text = c :: cs ∧ c.isDigit = true := by
  obtain ⟨c, cs, hcs⟩ := List.exists_cons_of_ne_nil (digitChars_ne_nil h)
  have hc := d.isDigit_digitChars c (hcs ▸ List.mem_cons_self ..)
  unfold text
  dsimp only
  rw [hcs]
  split_ifs
  all_goals
    refine ⟨_, _, rfl, ?_⟩
    first
      | exact hc
      | rfl

end Decimal

/-! ## Reading the text of a double -/

theorem round_neg (x : ℚ) : round (-x) = -round x := by
  have hfloor := Int.floor_le x
  have hlt := Int.lt_floor_add_one x
  rcases hfloor.eq_or_lt with hint | hfrac
  · rw [← hint, round_intCast, ← Int.cast_neg, round_intCast]
  · have hneg : ⌊-x⌋ = -⌊x⌋ - 1 := by
      rw [Int.floor_eq_iff]
      push_cast
      constructor <;> linarith
    unfold round
    dsimp only
    rw [hneg]
    push_cast
    rcases lt_trichotomy (x - ⌊x⌋) (1 / 2) with h | h | h
    · rw [if_pos h, if_neg (by linarith), if_pos (by linarith)]
      ring
    · rw [if_neg (by linarith), if_neg (by linarith), if_neg (by linarith), if_neg (by linarith)]
      omega
    · rw [if_neg h.not_gt, if_pos h, if_pos (by linarith)]
      ring

/-- Rounding is the same on both sides of zero. -/
theorem nearest_neg {d x : ℚ} (h : nearest d = .fin x) : nearest (-d) = .fin (-x) := by
  obtain ⟨rfl, hlt⟩ := eq_of_nearest h
  have hplace : lastPlace (-d) = lastPlace d := by rw [lastPlace, abs_neg, lastPlace]
  have hneg : nearestMultiple (-d) = -nearestMultiple d := by
    rw [nearestMultiple, hplace, neg_div, round_neg, nearestMultiple]
    push_cast
    ring
  obtain ⟨hlow, hhigh⟩ := abs_lt.1 hlt
  rw [nearest, hneg, if_neg (neg_lt.1 hlow).not_ge, if_neg (neg_lt_neg hhigh).not_ge]

theorem isSpace_of_isNumeric {c : Char} (h : IsNumeric c) : isSpace c = false := by
  have hother : ∀ c ∈ ['-', '+', '.', 'e'], isSpace c = false := forall_of_all (by decide)
  rcases h with h | h
  · exact isSpace_of_isDigit h
  · exact hother c h

theorem isSpace_reprFloat (x : ℚ) : ∀ c ∈ (reprFloat (.fin x)).toList, isSpace c = false :=
  fun c hc => isSpace_of_isNumeric (isNumeric_reprFloat x c hc)

/-- `float(repr(x))` is `x`. -/
theorem readFloat_reprFloat {x : ℚ} (hself : nearest x = .fin x) :
    readFloat (reprFloat (.fin x)) = some (.fin x) := by
  by_cases hzero : x = 0
  · subst hzero
    decide +kernel
  · have habs : nearest |x| = .fin |x| := by
      rcases abs_choice x with h | h
      · rwa [h]
      · rw [h]
        exact nearest_neg hself
    have hpos := abs_pos.2 hzero
    have hread := nearest_shortDecimal hpos habs
    have hdigits := shortDecimal_digits_ne hpos habs
    obtain ⟨c, cs, htext, hc⟩ := Decimal.exists_cons_text hdigits
    have hparse := Decimal.parseDecimal_text hdigits
    have hspace := isSpace_reprFloat x
    have hlist : (reprFloat (.fin x)).toList = (if x < 0 then ['-'] else []) ++ c :: cs := by
      rw [reprFloat, if_neg hzero, String.toList_ofList, htext]
    rw [htext] at hparse
    rw [readFloat]
    by_cases hneg : x < 0
    · have hsign : takeSign (reprFloat (.fin x)).toList = (true, c :: cs) := by
        rw [hlist, if_pos hneg]
        rfl
      rw [parseFloat_of_digit hspace hsign hc hparse, if_pos rfl, Option.map_some]
      dsimp only
      rw [nearest_neg hread, abs_of_neg hneg, neg_neg]
    · have hsign : takeSign (reprFloat (.fin x)).toList = (false, c :: cs) := by
        rw [hlist, if_neg hneg]
        exact takeSign_of_isDigit hc cs
      rw [parseFloat_of_digit hspace hsign hc hparse, if_neg Bool.false_ne_true, Option.map_some]
      dsimp only
      rw [hread, abs_of_nonneg (not_lt.1 hneg)]

/-- A value of `float`: a finite one is its own nearest double. -/
def Double.IsBinary64 : Double → Prop
  | .fin x => nearest x = .fin x
  | _ => True

/-- Every float reads back from its text. -/
theorem readFloat_reprFloat_of_isBinary64 {x : Double} (h : x.IsBinary64) :
    readFloat (reprFloat x) = some x := by
  cases x with
  | fin x => exact readFloat_reprFloat h
  | _ => decide +kernel

end Py
