import BifrostTrade.Lib.Payload
import Mathlib.Tactic.Linarith
import Mathlib.Tactic.NormNum
import Mathlib.Tactic.Ring

/-!
# Binary64

Sums and products of doubles, each the nearest double of the exact one, and which integers a double
holds exactly.  The time of a timestamp is the same before and after `float` (`fromTimestamp_int`).
-/

namespace Py

/-! ## Arithmetic -/

/-- Whether the number is below zero. -/
def Double.isNegative : Double → Bool
  | .fin x => x < 0
  | .negInf => true
  | _ => false

/-- `x + y`. -/
def Double.add : Double → Double → Double
  | .fin x, .fin y => nearest (x + y)
  | .fin _, y => y
  | x, .fin _ => x
  | .posInf, .posInf => .posInf
  | .negInf, .negInf => .negInf
  | _, _ => .nan

/-- `x - y`. -/
def Double.sub (x y : Double) : Double := x.add y.neg

/-- A product that is not of two finite numbers: infinite, with the sign of both. -/
def Double.mulInf (x y : Double) : Double :=
  if x = .nan ∨ y = .nan ∨ x = .fin 0 ∨ y = .fin 0 then .nan
  else if x.isNegative = y.isNegative then .posInf else .negInf

/-- `x * y`. -/
def Double.mul : Double → Double → Double
  | .fin x, .fin y => nearest (x * y)
  | x, y => x.mulInf y

/-- An integer that a double holds exactly. -/
def FloatExact (n : ℤ) : Prop := ∃ (m : ℤ) (e : ℕ), |m| < 2 ^ 53 ∧ e ≤ 971 ∧ n = m * 2 ^ e

/-! ## Exact integers -/

theorem round_intCast (k : ℤ) : round (k : ℚ) = k := by
  simp [round]

theorem two_zpow_pos (e : ℤ) : (0 : ℚ) < 2 ^ e := zpow_pos (by norm_num) e

theorem lt_two_zpow_log (x : ℚ) : |x| < 2 ^ (Int.log 2 |x| + 1) := by
  exact_mod_cast Int.lt_zpow_succ_log_self (b := 2) (by decide) |x|

/-- A multiple of the last place is its own nearest multiple. -/
theorem nearestMultiple_of_multiple {x : ℚ} {k : ℤ} (h : x = k * 2 ^ lastPlace x) :
    nearestMultiple x = x := by
  have hdiv : x / 2 ^ lastPlace x = k := by
    rw [div_eq_iff (two_zpow_pos _).ne']
    exact h
  rw [nearestMultiple, hdiv, round_intCast, ← h]

/-- An integer multiple of a place that is not finer than the last is a multiple of the last. -/
theorem nearestMultiple_of_le {x : ℚ} {m : ℤ} {e : ℕ} (hx : x = m * 2 ^ e)
    (he : lastPlace x ≤ e) : nearestMultiple x = x := by
  obtain ⟨d, hd⟩ := Int.eq_ofNat_of_zero_le (sub_nonneg.2 he)
  have hsplit : (2 : ℚ) ^ e = 2 ^ d * 2 ^ lastPlace x := by
    rw [← zpow_natCast, ← zpow_natCast, ← zpow_add₀ (by norm_num)]
    congr 1
    omega
  refine nearestMultiple_of_multiple (k := m * 2 ^ d) ?_
  calc x = m * 2 ^ e := hx
    _ = ((m * 2 ^ d : ℤ) : ℚ) * 2 ^ lastPlace x := by
        rw [hsplit]
        push_cast
        ring

theorem lastPlace_le {x : ℚ} {e : ℕ} (hx : |x| < 2 ^ (53 + e)) : lastPlace x ≤ e := by
  refine max_le ?_ (by omega)
  rcases eq_or_ne x 0 with rfl | hne
  · simp
  · have hlog : Int.log 2 |x| < 53 + e := by
      rw [← Int.lt_zpow_iff_log_lt (by decide) (abs_pos.2 hne)]
      exact_mod_cast hx
    omega

theorem nearest_of_lt {x : ℚ} (hself : nearestMultiple x = x) (hx : |x| < 2 ^ 1024) :
    nearest x = .fin x := by
  obtain ⟨hlow, hhigh⟩ := abs_lt.1 hx
  rw [nearest, hself, if_neg hhigh.not_ge, if_neg hlow.not_ge]

theorem eq_of_nearest {x : ℚ} {y : ℚ} (h : nearest x = .fin y) :
    y = nearestMultiple x ∧ |y| < 2 ^ 1024 := by
  unfold nearest at h
  split_ifs at h with hhigh hlow
  obtain rfl := Double.fin.inj h
  exact ⟨rfl, abs_lt.2 ⟨not_le.1 hlow, not_le.1 hhigh⟩⟩

theorem nearest_of_floatExact {n : ℤ} (h : FloatExact n) : nearest n = .fin n := by
  obtain ⟨m, e, hm, he, rfl⟩ := h
  have hm' : (|m| : ℚ) < 2 ^ 53 := by exact_mod_cast hm
  have habs : |((m * 2 ^ e : ℤ) : ℚ)| = |(m : ℚ)| * 2 ^ e := by
    push_cast
    rw [abs_mul, abs_of_pos (show (0 : ℚ) < 2 ^ e by positivity)]
  have hpos : (0 : ℚ) < 2 ^ e := by positivity
  have hplace : |((m * 2 ^ e : ℤ) : ℚ)| < 2 ^ (53 + e) := by
    rw [habs, pow_add]
    exact mul_lt_mul_of_pos_right hm' hpos
  refine nearest_of_lt (nearestMultiple_of_le (m := m) (by push_cast; rfl) (lastPlace_le hplace)) ?_
  exact hplace.trans_le (pow_le_pow_right₀ (by norm_num) (by omega))

theorem floatExact_of_nearest {n : ℤ} (h : nearest n = .fin n) : FloatExact n := by
  obtain ⟨hself, hlt⟩ := eq_of_nearest h
  have hlog := lt_two_zpow_log (n : ℚ)
  by_cases hplace : lastPlace n < 0
  · -- the places go below one, so the integer is small
    refine ⟨n, 0, ?_, by omega, by simp⟩
    have hle : Int.log 2 |(n : ℚ)| + 1 ≤ 53 := by
      have := (max_lt_iff.1 hplace).1
      omega
    have hsmall : |(n : ℚ)| < 2 ^ (53 : ℤ) :=
      hlog.trans_le (zpow_le_zpow_right₀ (by norm_num) hle)
    exact_mod_cast hsmall
  · obtain ⟨e, he⟩ := Int.eq_ofNat_of_zero_le (not_lt.1 hplace)
    have heq : Int.log 2 |(n : ℚ)| - 52 = e := by
      unfold lastPlace at he
      omega
    have hn : n = round (n / 2 ^ lastPlace n) * 2 ^ e := by
      have hself' := hself
      rw [nearestMultiple, he, zpow_natCast] at hself'
      rw [he, zpow_natCast]
      exact_mod_cast hself'
    refine ⟨round (n / 2 ^ lastPlace n), e, ?_, ?_, hn⟩
    · have hpos : (0 : ℚ) < 2 ^ e := by positivity
      have habs : |(n : ℚ)| = |(round (n / 2 ^ lastPlace n) : ℚ)| * 2 ^ e := by
        conv_lhs => rw [hn]
        push_cast
        rw [abs_mul, abs_of_pos hpos]
      rw [show Int.log 2 |(n : ℚ)| + 1 = ((53 + e : ℕ) : ℤ) by push_cast; omega,
        zpow_natCast, habs, pow_add] at hlog
      exact_mod_cast lt_of_mul_lt_mul_right hlog hpos.le
    · rcases eq_or_ne n 0 with rfl | hne
      · simp at heq
      · have hn0 : (0 : ℚ) < |(n : ℚ)| := abs_pos.2 (by exact_mod_cast hne)
        have hlt' : Int.log 2 |(n : ℚ)| < 1024 := by
          rw [← Int.lt_zpow_iff_log_lt (by decide) hn0,
            show (1024 : ℤ) = ((1024 : ℕ) : ℤ) from rfl, zpow_natCast]
          exact hlt
        omega

/-- The nearest double of an integer is an integer. -/
theorem exists_int_of_nearest {n : ℤ} {y : ℚ} (h : nearest n = .fin y) : ∃ k : ℤ, y = k := by
  obtain ⟨rfl, -⟩ := eq_of_nearest h
  by_cases hplace : lastPlace n ≤ 0
  · exact ⟨n, nearestMultiple_of_le (m := n) (e := 0) (by simp) hplace⟩
  · obtain ⟨e, he⟩ := Int.eq_ofNat_of_zero_le (not_le.1 hplace).le
    refine ⟨round (n / 2 ^ lastPlace n) * 2 ^ e, ?_⟩
    rw [nearestMultiple, he, zpow_natCast]
    push_cast
    rfl

@[simp] theorem toInt_intCast (k : ℤ) : (Double.fin k).toInt = some k := by
  simp [Double.toInt]

/-- `int(float(n))` is `n` exactly for the integers that a double holds. -/
theorem toInt_nearest_iff (n : ℤ) : (nearest n).toInt = some n ↔ FloatExact n := by
  constructor
  · intro h
    cases hd : nearest n with
    | fin y =>
      obtain ⟨k, rfl⟩ := exists_int_of_nearest hd
      rw [hd, toInt_intCast] at h
      obtain rfl := Option.some.inj h
      exact floatExact_of_nearest hd
    | posInf =>
      rw [hd] at h
      cases h
    | negInf =>
      rw [hd] at h
      cases h
    | nan =>
      rw [hd] at h
      cases h
  · intro h
    rw [nearest_of_floatExact h, toInt_intCast]

/-! ## The texts of integers -/

theorem decimalValue_of_isDigit {c : Char} (h : c.isDigit = true) :
    decimalValue c = some (c.toNat - 48) := by
  obtain ⟨d, rfl⟩ := exists_digit h
  revert d
  decide

theorem isSpace_of_isDigit {c : Char} (h : c.isDigit = true) : isSpace c = false := by
  obtain ⟨d, rfl⟩ := exists_digit h
  revert d
  decide

theorem upperChar_of_isDigit {c : Char} (h : c.isDigit = true) : upperChar c = [c] := by
  obtain ⟨d, rfl⟩ := exists_digit h
  revert d
  decide

theorem takeDigits_of_isDigit (after : Bool) {cs : List Char} (h : ∀ c ∈ cs, c.isDigit = true) :
    takeDigits after cs = (cs.map fun c => c.toNat - 48, []) := by
  induction cs generalizing after with
  | nil => rfl
  | cons c cs ih =>
    rw [List.forall_mem_cons] at h
    rw [takeDigits, decimalValue_of_isDigit h.1]
    dsimp only
    rw [ih true h.2, List.map_cons]

theorem digitsValue_append (ds : List ℕ) (d : ℕ) :
    digitsValue (ds ++ [d]) = 10 * digitsValue ds + d := by
  simp [digitsValue]

/-- The digits of a number spell it. -/
theorem digitsValue_toDigits (n : ℕ) :
    digitsValue ((Nat.toDigits 10 n).map fun c => c.toNat - 48) = n := by
  have hchar : ∀ d : Fin 10, (Nat.digitChar d.val).toNat - 48 = d.val := by decide
  induction n using Nat.strongRecOn with
  | ind n ih =>
    rw [Nat.toDigits_eq_if (by decide)]
    split_ifs with hlt
    · have hd := hchar ⟨n, hlt⟩
      simpa [digitsValue] using hd
    · have hd := hchar ⟨n % 10, Nat.mod_lt n (by decide)⟩
      dsimp only at hd
      rw [List.map_append, List.map_singleton, digitsValue_append, ih (n / 10) (by omega), hd]
      omega

theorem parseDecimal_toDigits (n : ℕ) : parseDecimal (Nat.toDigits 10 n) = some (n : ℚ) := by
  have hne : ((Nat.toDigits 10 n).map fun c => c.toNat - 48) ≠ [] := by simp
  rw [parseDecimal, takeDigits_of_isDigit false isDigit_of_mem_toDigits]
  dsimp only
  rw [if_neg fun h => hne h.1, List.append_nil, digitsValue_toDigits]
  simp [parseExponent]

/-- What starts with a digit is no word. -/
theorem upper_cons_ne {c : Char} {cs : List Char} {word : String} (hc : c.isDigit = true)
    (h : word.toList.head?.any Char.isDigit = false) : upper (String.ofList (c :: cs)) ≠ word := by
  intro heq
  rw [upper, String.toList_ofList, List.flatMap_cons, upperChar_of_isDigit hc] at heq
  rw [← heq, String.toList_ofList, List.singleton_append, List.head?_cons, Option.any_some, hc] at h
  cases h

theorem parseFloat_of_digit {s : String} {neg : Bool} {c : Char} {cs : List Char} {x : ℚ}
    (hspace : ∀ c ∈ s.toList, isSpace c = false) (hsign : takeSign s.toList = (neg, c :: cs))
    (hc : c.isDigit = true) (hx : parseDecimal (c :: cs) = some x) :
    parseFloat s = some (.fin (if neg then -x else x)) := by
  rw [parseFloat, strip_of_forall hspace, hsign]
  dsimp only
  rw [if_neg, if_neg, hx]
  · rfl
  · exact upper_cons_ne hc (by decide)
  · exact not_or.2 ⟨upper_cons_ne hc (by decide), upper_cons_ne hc (by decide)⟩

theorem takeSign_of_isDigit {c : Char} (hc : c.isDigit = true) (cs : List Char) :
    takeSign (c :: cs) = (false, c :: cs) := by
  rw [takeSign]
  · intro rest heq
    rw [(List.cons.inj heq).1] at hc
    cases hc
  · intro rest heq
    rw [(List.cons.inj heq).1] at hc
    cases hc

/-- A number has no sign of its own. -/
theorem takeSign_toDigits (n : ℕ) :
    takeSign (Nat.toDigits 10 n) = (false, Nat.toDigits 10 n) := by
  obtain ⟨c, cs, hcs⟩ := List.exists_cons_of_ne_nil (@Nat.toDigits_ne_nil n 10)
  rw [hcs]
  exact takeSign_of_isDigit (isDigit_of_mem_toDigits c (hcs ▸ List.mem_cons_self ..)) cs

theorem toList_toString (n : ℤ) :
    (toString n).toList = (if n < 0 then ['-'] else []) ++ Nat.toDigits 10 n.natAbs := by
  rcases n with n | n
  · have hlist : (toString (Int.ofNat n)).toList = Nat.toDigits 10 n := Nat.toList_repr
    rw [hlist, if_neg (by simp)]
    rfl
  · have hlist : (toString (Int.negSucc n)).toList = '-' :: Nat.toDigits 10 (n + 1) := by
      show ("-" ++ (n + 1).repr).toList = _
      rw [String.toList_append, Nat.toList_repr]
      rfl
    rw [hlist, if_pos (Int.negSucc_lt_zero n)]
    rfl

/-- The text of an integer is its sign and its digits. -/
theorem takeSign_toString (n : ℤ) :
    takeSign (toString n).toList = (decide (n < 0), Nat.toDigits 10 n.natAbs) := by
  rw [toList_toString]
  by_cases hn : n < 0
  · rw [if_pos hn, decide_eq_true hn]
    rfl
  · rw [if_neg hn, decide_eq_false hn]
    exact takeSign_toDigits n.natAbs

theorem isSpace_toString (n : ℤ) : ∀ c ∈ (toString n).toList, isSpace c = false := by
  intro c hc
  rw [toList_toString, List.mem_append] at hc
  rcases hc with hsign | hdigit
  · have hminus : c = '-' := by
      split at hsign <;> simp_all
    rw [hminus]
    decide
  · exact isSpace_of_isDigit (isDigit_of_mem_toDigits c hdigit)

theorem sign_natAbs (n : ℤ) : (if n < 0 then -(n.natAbs : ℤ) else n.natAbs) = n := by
  split <;> omega

theorem parseFloat_toString (n : ℤ) : parseFloat (toString n) = some (.fin n) := by
  have hvalue := parseDecimal_toDigits n.natAbs
  have hsign := takeSign_toString n
  obtain ⟨c, cs, hcs⟩ := List.exists_cons_of_ne_nil (@Nat.toDigits_ne_nil n.natAbs 10)
  have hdigit := isDigit_of_mem_toDigits c (hcs ▸ List.mem_cons_self ..)
  rw [hcs] at hvalue hsign
  rw [parseFloat_of_digit (isSpace_toString n) hsign hdigit hvalue]
  conv_rhs => rw [← sign_natAbs n]
  by_cases hn : n < 0 <;> simp [hn]

/-- `int(str(n))` is `n`. -/
theorem parseInt_toString (n : ℤ) : parseInt (toString n) = some n := by
  have hdigits := takeDigits_of_isDigit false (@isDigit_of_mem_toDigits n.natAbs)
  obtain ⟨c, cs, hcs⟩ := List.exists_cons_of_ne_nil (@Nat.toDigits_ne_nil n.natAbs 10)
  have hvalue := digitsValue_toDigits n.natAbs
  rw [hcs, List.map_cons] at hdigits hvalue
  rw [parseInt, strip_of_forall (isSpace_toString n), takeSign_toString, hcs]
  dsimp only
  rw [hdigits]
  dsimp only
  rw [hvalue]
  conv_rhs => rw [← sign_natAbs n]
  by_cases hn : n < 0 <;> simp [hn]

/-- Integers are told apart by their texts. -/
theorem toString_injective : Function.Injective (toString : ℤ → String) := fun m n h => by
  have hm := parseInt_toString m
  rw [h, parseInt_toString] at hm
  exact (Option.some.inj hm).symm

/-- The text of an integer is read as the nearest double. -/
theorem readFloat_toString (n : ℤ) : readFloat (toString n) = some (nearest n) := by
  rw [readFloat, parseFloat_toString]
  rfl

/-- A text that is read as a float is not blank. -/
theorem strip_ne_empty_of_readFloat {s : String} {d : Double} (h : readFloat s = some d) :
    strip s ≠ "" := by
  intro hblank
  have hempty : parseFloat s = parseFloat "" := by
    rw [parseFloat, parseFloat, hblank, strip_empty]
  rw [readFloat, hempty, show parseFloat "" = none by decide +kernel] at h
  cases h

theorem ne_empty_of_readFloat {s : String} {d : Double} (h : readFloat s = some d) : s ≠ "" :=
  fun hempty => strip_ne_empty_of_readFloat h (hempty ▸ strip_empty)

/-! ## Timestamps -/

/-- A time in microseconds since 1970, where it lies in the years of a `datetime`. -/
def inYears (micros : ℤ) : Option ℤ :=
  if -62135596800000000 ≤ micros ∧ micros < 253402300800000000 then some micros else none

/-- `datetime.fromtimestamp(t, tz=utc)` in microseconds since 1970, of a float by its whole and its
fractional part; `none` where it raises. -/
def fromTimestamp : PayloadValue → Option ℤ
  | .bool b => inYears (if b then 1000000 else 0)
  | .int n => inYears (n * 1000000)
  | .float (.fin x) =>
      (Double.fin x).toInt.bind fun seconds =>
        match nearest ((x - seconds) * 1000000) with
        | .fin micros => inYears (seconds * 1000000 + round micros)
        | _ => none
  | _ => none

example : fromTimestamp (.float (.fin (-1 / 4))) = some (-250000) := by decide +kernel

theorem inYears_eq_none {n : ℤ} (h : 2 ^ 45 ≤ |n|) : inYears (n * 1000000) = none := by
  refine if_neg fun hyears => ?_
  rcases le_abs.1 h with h | h <;> omega

theorem fromTimestamp_intCast (n : ℤ) :
    fromTimestamp (.float (.fin n)) = inYears (n * 1000000) := by
  have hzero : nearest (((n : ℚ) - n) * 1000000) = .fin 0 := by
    have hexact : nearest ((0 : ℤ) : ℚ) = .fin ((0 : ℤ) : ℚ) :=
      nearest_of_floatExact ⟨0, 0, by norm_num, by norm_num, by norm_num⟩
    simpa using hexact
  have hround : round 0 = 0 := by decide +kernel
  rw [fromTimestamp, toInt_intCast, Option.bind_some, hzero]
  dsimp only
  rw [hround, add_zero]

theorem abs_sub_one_le_abs_round (x : ℚ) : |x| - 1 ≤ |(round x : ℚ)| := by
  have hnear := abs_sub_round_le x
  have hdiff := abs_sub_abs_le_abs_sub x (round x)
  linarith

/-- An integer beyond the exact ones stays that large as a double. -/
theorem le_abs_nearest {n : ℤ} {y : ℚ} (hn : 2 ^ 53 ≤ |n|) (h : nearest n = .fin y) :
    2 ^ 52 - 1 ≤ |y| := by
  obtain ⟨rfl, -⟩ := eq_of_nearest h
  have hn' : (2 : ℚ) ^ 53 ≤ |(n : ℚ)| := by exact_mod_cast hn
  have hpos : (0 : ℚ) < |(n : ℚ)| := lt_of_lt_of_le (by norm_num) hn'
  have hlog : 53 ≤ Int.log 2 |(n : ℚ)| := by
    rw [← Int.zpow_le_iff_le_log (by decide) hpos]
    exact_mod_cast hn'
  have hplace : lastPlace n = Int.log 2 |(n : ℚ)| - 52 := max_eq_left (by omega)
  have hunit : (1 : ℚ) ≤ 2 ^ lastPlace n := one_le_zpow₀ (by norm_num) (by omega)
  have hdigits : (2 : ℚ) ^ 52 ≤ |(n : ℚ) / 2 ^ lastPlace n| := by
    rw [abs_div, abs_of_pos (two_zpow_pos _), le_div_iff₀ (two_zpow_pos _), hplace,
      ← zpow_natCast, ← zpow_add₀ (by norm_num)]
    have hself := Int.zpow_log_le_self (b := 2) (by decide) hpos
    push_cast at hself ⊢
    rwa [show (52 : ℤ) + (Int.log 2 |(n : ℚ)| - 52) = Int.log 2 |(n : ℚ)| by ring]
  have hround := abs_sub_one_le_abs_round ((n : ℚ) / 2 ^ lastPlace n)
  rw [nearestMultiple, abs_mul, abs_of_pos (two_zpow_pos _)]
  calc (2 : ℚ) ^ 52 - 1 ≤ |(round (n / 2 ^ lastPlace n) : ℚ)| := by linarith
    _ ≤ |(round (n / 2 ^ lastPlace n) : ℚ)| * 2 ^ lastPlace n :=
        le_mul_of_one_le_right (abs_nonneg _) hunit

/-- `float(t)` gives the same time as `t`: where it rounds, no year has the time. -/
theorem fromTimestamp_int (n : ℤ) :
    ((PayloadValue.int n).toDouble.bind fun x => fromTimestamp (.float x)) =
      fromTimestamp (.int n) := by
  show _ = inYears (n * 1000000)
  by_cases hn : |n| < 2 ^ 53
  · have hexact : nearest n = .fin n := nearest_of_floatExact ⟨n, 0, hn, by norm_num, by simp⟩
    have hdouble : (PayloadValue.int n).toDouble = some (.fin n) := by
      rw [PayloadValue.toDouble, hexact]
      rfl
    rw [hdouble, Option.bind_some, fromTimestamp_intCast]
  · have hlarge : 2 ^ 53 ≤ |n| := not_lt.1 hn
    rw [inYears_eq_none (le_trans (by norm_num) hlarge), PayloadValue.toDouble]
    cases hd : nearest n with
    | fin y =>
      obtain ⟨k, rfl⟩ := exists_int_of_nearest hd
      have hk := le_abs_nearest hlarge hd
      have hk' : (2 : ℤ) ^ 45 ≤ |k| := by
        have : (2 : ℚ) ^ 45 ≤ |(k : ℚ)| := le_trans (by norm_num) hk
        exact_mod_cast this
      show fromTimestamp (.float (.fin k)) = none
      rw [fromTimestamp_intCast, inYears_eq_none hk']
    | posInf => rfl
    | negInf => rfl
    | nan => rfl

end Py
