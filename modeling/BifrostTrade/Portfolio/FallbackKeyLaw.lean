import BifrostTrade.Lib.DateText
import BifrostTrade.Portfolio.FallbackKey

/-!
# What the keys made at read time identify

A row names a contract: a symbol, perhaps a date, perhaps a strike, perhaps a right, each in one of
several representations.  Equal keys are keys of one contract.  One contract can have two keys: a
strike that is a text keeps its spelling, so `"80.0"` is not the key of `80`
(`keysIdentify_iff`).
-/

namespace Portfolio

open Py

/-! ## The contract of a row -/

/-- The date that an expiry stands for: none, a text with or without dashes, or a number. -/
inductive ExpiryReads : PayloadValue → Option Date → Prop
  | absent : ExpiryReads .null none
  | blank {s : String} (h : strip s = "") : ExpiryReads (.text s) none
  | text {s : String} {d : Date} (h : (strip s).toList.filter (· ≠ '-') = d.compactChars) :
      ExpiryReads (.text s) (some d)
  | int (d : Date) : ExpiryReads (.int d.number) (some d)
  | float (d : Date) : ExpiryReads (.float (.fin d.number)) (some d)

/-- The number that a strike stands for, as a float: none, a numeric text, or a number. -/
inductive StrikeReads : PayloadValue → Option ℚ → Prop
  | absent : StrikeReads .null none
  | blank {s : String} (h : strip s = "") : StrikeReads (.text s) none
  | text {s : String} {x : ℚ} (h : readFloat s = some (.fin x)) : StrikeReads (.text s) (some x)
  | int {n : ℤ} {x : ℚ} (h : nearest n = .fin x) : StrikeReads (.int n) (some x)
  | float {x : ℚ} (h : nearest x = .fin x) : StrikeReads (.float (.fin x)) (some x)

/-- The first letter of the right, or of `right` where `option_right` is blank. -/
def rowRight (row : FallbackRow) : Option Char :=
  (upper (strip (textOrEmpty row.optionRight))).toList.head?.or
    (upper (strip (textOrEmpty row.right))).toList.head?

/-- An option row that is stored without a key. -/
structure Keyless (row : FallbackRow) : Prop where
  secType : upper (strip (textOrEmpty row.secType)) = "OPT"
  contractKey : strip (textOrEmpty row.contractKey) = ""

/-- The expiry and the strike are representations of a date and a number, or are absent. -/
structure Represented (row : FallbackRow) : Prop where
  expiry : ∃ d, ExpiryReads row.expiry d
  strike : ∃ x, StrikeReads row.strike x

/-- The rows name one contract. -/
structure OneContract (r r' : FallbackRow) : Prop where
  symbol : strip (textOrEmpty r.symbol) = strip (textOrEmpty r'.symbol)
  expiry : ∃ d, ExpiryReads r.expiry d ∧ ExpiryReads r'.expiry d
  strike : ∃ x, StrikeReads r.strike x ∧ StrikeReads r'.strike x
  right : rowRight r = rowRight r'

/-- The keys of the rows are equal exactly where they name one contract. -/
def KeysIdentify (r r' : FallbackRow) : Prop :=
  readFallbackOptKey r = readFallbackOptKey r' ↔ OneContract r r'

/-! ## Spellings -/

/-- A strike that is absent, a float, an integer that a double holds, or a text that is spelled as
its number is printed. -/
inductive PlainStrike : PayloadValue → Prop
  | absent : PlainStrike .null
  | blank {s : String} (h : strip s = "") : PlainStrike (.text s)
  | text {s : String} {x : ℚ} (h : readFloat s = some (.fin x)) (hs : strip s = plainNumeral x) :
      PlainStrike (.text s)
  | int {n : ℤ} (h : nearest n = .fin n) : PlainStrike (.int n)
  | float (x : Double) : PlainStrike (.float x)

/-- The strike is this text, or an integer with these digits. -/
inductive SpelledAs : PayloadValue → String → Prop
  | text (s : String) : SpelledAs (.text s) (strip s)
  | int (n : ℤ) : SpelledAs (.int n) (toString n)

/-- Both strikes are spelled plainly, or both the same. -/
def StrikesAlike (k k' : PayloadValue) : Prop :=
  PlainStrike k ∧ PlainStrike k' ∨ ∃ t, SpelledAs k t ∧ SpelledAs k' t

/-- An expiry that is a text, not a number. -/
def isText : PayloadValue → Bool
  | .text _ => true
  | _ => false

/-- A date whose year has four digits, or two texts, or two numbers. -/
def ExpiriesAlike (e e' : PayloadValue) : Prop :=
  ∀ d : Date, ExpiryReads e (some d) → 1000 ≤ d.year ∨ isText e = isText e'

/-! ## The expiry of a key -/

/-- How a date is written in a key. -/
def dateChars (v : PayloadValue) : Option Date → List Char
  | none => []
  | some d => if isText v then d.compactChars else Nat.toDigits 10 d.number

theorem isInf_nearest_of_lt {n : ℤ} (h : |n| < 2 ^ 53) : (nearest n).isInf = false := by
  rw [nearest_of_floatExact ⟨n, 0, h, by decide, by simp⟩]
  rfl

theorem toList_toString_nat (n : ℕ) : (toString (n : ℤ)).toList = Nat.toDigits 10 n := by
  rw [toList_toString, if_neg (by omega)]
  simp

theorem number_pos (d : Date) : 0 < d.number := by
  have hyear := d.year_mem
  unfold Date.number
  omega

theorem fallbackExpiryText_of_reads {v : PayloadValue} {d : Option Date} (h : ExpiryReads v d) :
    ∃ e, fallbackExpiryText v = some e ∧ e.toList = dateChars v d := by
  have htext : ∀ s : String, fallbackExpiryText (.text s) =
      some (String.ofList ((strip s).toList.filter (· ≠ '-'))) := by
    intro s
    by_cases hs : s = ""
    · subst hs
      decide +kernel
    · rw [fallbackExpiryText, if_pos (by simpa [PayloadValue.truthy] using hs)]
  cases h with
  | absent => exact ⟨"", by decide +kernel, rfl⟩
  | blank hs =>
    refine ⟨_, htext _, ?_⟩
    rw [hs]
    rfl
  | text hs => exact ⟨_, htext _, by rw [String.toList_ofList, hs]; rfl⟩
  | int date =>
    have hpos := number_pos date
    have hlt := date.number_lt
    have hfin : (nearest ((date.number : ℤ) : ℚ)).isInf = false :=
      isInf_nearest_of_lt (by rw [abs_of_nonneg (by omega)]; omega)
    refine ⟨toString (date.number : ℤ), ?_, toList_toString_nat _⟩
    rw [fallbackExpiryText, if_pos (by simp [PayloadValue.truthy]; omega)]
    dsimp only
    rw [intIsFinite, hfin]
    rfl
  | float date =>
    have hpos := number_pos date
    refine ⟨toString (date.number : ℤ), ?_, toList_toString_nat _⟩
    have hne : (date.number : ℚ) ≠ 0 := by exact_mod_cast hpos.ne'
    have hint := toInt_intCast (date.number : ℤ)
    rw [Int.cast_natCast] at hint
    rw [fallbackExpiryText, if_pos (by simpa [PayloadValue.truthy] using hne)]
    dsimp only
    rw [hint]
    rfl

theorem isDigit_dateChars (v : PayloadValue) (d : Option Date) :
    ∀ c ∈ dateChars v d, c.isDigit = true := by
  cases d with
  | none => exact fun c hc => absurd hc List.not_mem_nil
  | some d =>
    rw [dateChars]
    split_ifs
    exacts [d.isDigit_compactChars, isDigit_of_mem_toDigits]

/-- The digits of a date tell which date it is. -/
theorem charsValue_dateChars (v : PayloadValue) (d : Option Date) :
    charsValue (dateChars v d) = d.elim 0 Date.number := by
  cases d with
  | none => rfl
  | some d =>
    rw [dateChars]
    split_ifs
    exacts [d.charsValue_compactChars, charsValue_toDigits _]

theorem dateChars_inj {v v' : PayloadValue} {d d' : Option Date}
    (h : dateChars v d = dateChars v' d') : d = d' := by
  have hvalue := congrArg charsValue h
  rw [charsValue_dateChars, charsValue_dateChars] at hvalue
  cases d with
  | none =>
    cases d' with
    | none => rfl
    | some d' => exact absurd hvalue (number_pos d').ne
  | some d =>
    cases d' with
    | none => exact absurd hvalue (number_pos d).ne'
    | some d' => rw [Date.number_injective hvalue]

theorem dateChars_eq_iff (v v' : PayloadValue) (d : Option Date) :
    dateChars v d = dateChars v' d ↔
      ∀ date : Date, d = some date → 1000 ≤ date.year ∨ isText v = isText v' := by
  cases d with
  | none => simp [dateChars]
  | some d =>
    have hfour := d.toDigits_number_iff
    have hfour' : d.compactChars = Nat.toDigits 10 d.number ↔ 1000 ≤ d.year := eq_comm.trans hfour
    simp only [Option.some.injEq, forall_eq', dateChars]
    cases isText v <;> cases isText v' <;> simp [hfour, hfour']

/-! ## The strike of a key -/

theorem readFloat_empty : readFloat "" = none := by decide +kernel

theorem readFloat_strip (s : String) : readFloat (strip s) = readFloat s := by
  rw [readFloat, parseFloat, strip_strip, readFloat, parseFloat]

/-- A float is printed as a text that is read as it. -/
theorem readFloat_plainNumeral {x : ℚ} (h : nearest x = .fin x) :
    readFloat (plainNumeral x) = some (.fin x) := by
  rw [plainNumeral]
  split_ifs with hden
  · rw [readFloat_toString, Rat.coe_int_num_of_den_eq_one hden, h]
  · exact readFloat_reprFloat h

theorem plainNumeral_intCast (n : ℤ) : plainNumeral n = toString n := by
  rw [plainNumeral, if_pos (Rat.den_intCast n), Rat.num_intCast]

/-- The text of a strike in a key: it is read as the strike, and it is the plain text of its number
where the strike is spelled plainly. -/
structure StrikePrinted (v : PayloadValue) (x : Option ℚ) (k : String) : Prop where
  printed : fallbackStrike v = some k
  reads : readFloat k = x.map .fin
  plain_iff : PlainStrike v ↔ k = x.elim "" plainNumeral
  spelled : ∀ t, SpelledAs v t → t = k
  covers : PlainStrike v ∨ SpelledAs v k

theorem strikePrinted_text {s : String} {x : ℚ} (h : readFloat s = some (.fin x)) :
    StrikePrinted (.text s) (some x) (strip s) where
  printed := rfl
  reads := (readFloat_strip s).trans h
  plain_iff := by
    constructor
    · intro hplain
      cases hplain with
      | blank hs => exact absurd hs (strip_ne_empty_of_readFloat h)
      | text hy hs =>
        rw [h] at hy
        rw [hs, Double.fin.inj (Option.some.inj hy)]
        rfl
    · exact fun hs => .text h hs
  spelled t ht := by
    cases ht
    rfl
  covers := .inr (.text s)

theorem strikePrinted_int {n : ℤ} {x : ℚ} (h : nearest n = .fin x) :
    StrikePrinted (.int n) (some x) (toString n) where
  printed := by
    rw [fallbackStrike, fallbackStrikeText, intIsFinite, h]
    · rfl
    all_goals simp
  reads := by
    rw [readFloat_toString, h]
    rfl
  plain_iff := by
    constructor
    · intro hplain
      cases hplain with
      | int hself =>
        rw [h] at hself
        rw [Double.fin.inj hself]
        exact (plainNumeral_intCast n).symm
    · intro hk
      obtain ⟨m, rfl⟩ := exists_int_of_nearest h
      have hk : toString n = toString m := hk.trans (plainNumeral_intCast m)
      rw [toString_injective hk] at h ⊢
      exact .int h
  spelled t ht := by
    cases ht
    rfl
  covers := .inr (.int n)

theorem strikePrinted_float {x : ℚ} (h : nearest x = .fin x) :
    StrikePrinted (.float (.fin x)) (some x) (plainNumeral x) where
  printed := rfl
  reads := readFloat_plainNumeral h
  plain_iff := iff_of_true (.float _) rfl
  spelled t ht := by cases ht
  covers := .inl (.float _)

theorem exists_strikePrinted {v : PayloadValue} {x : Option ℚ} (h : StrikeReads v x) :
    ∃ k, StrikePrinted v x k := by
  cases h with
  | absent =>
    refine ⟨"", rfl, readFloat_empty, iff_of_true .absent rfl, fun t ht => ?_, .inl .absent⟩
    cases ht
  | blank hs =>
    refine ⟨"", congrArg some hs, readFloat_empty, iff_of_true (.blank hs) rfl, fun t ht => ?_,
      .inl (.blank hs)⟩
    cases ht
    exact hs
  | text h => exact ⟨_, strikePrinted_text h⟩
  | int h => exact ⟨_, strikePrinted_int h⟩
  | float h => exact ⟨_, strikePrinted_float h⟩

/-- Strikes of one text are one number. -/
theorem StrikePrinted.inj {v v' : PayloadValue} {x x' : Option ℚ} {k : String}
    (h : StrikePrinted v x k) (h' : StrikePrinted v' x' k) : x = x' := by
  have hread := h.reads.symm.trans h'.reads
  exact Option.map_injective (fun _ _ => Double.fin.inj) hread

/-- Strikes of one number have one text where they are spelled alike. -/
theorem StrikePrinted.eq_iff {v v' : PayloadValue} {x : Option ℚ} {k k' : String}
    (h : StrikePrinted v x k) (h' : StrikePrinted v' x k') : k = k' ↔ StrikesAlike v v' := by
  constructor
  · rintro rfl
    rcases h.covers with hplain | hspelled
    · exact .inl ⟨hplain, h'.plain_iff.2 (h.plain_iff.1 hplain)⟩
    · rcases h'.covers with hplain' | hspelled'
      · exact .inl ⟨h.plain_iff.2 (h'.plain_iff.1 hplain'), hplain'⟩
      · exact .inr ⟨k, hspelled, hspelled'⟩
  · rintro (⟨hplain, hplain'⟩ | ⟨t, ht, ht'⟩)
    · rw [h.plain_iff.1 hplain, h'.plain_iff.1 hplain']
    · rw [← h.spelled t ht, ← h'.spelled t ht']

theorem notNumeric_pipe : NotNumeric '|' := ⟨by decide, by decide, by decide⟩

theorem StrikePrinted.noPipe {v : PayloadValue} {x : Option ℚ} {k : String}
    (h : StrikePrinted v x k) (hv : StrikeReads v x) : NoPipe k := by
  cases x with
  | none =>
    have hplain : PlainStrike v := by
      cases hv with
      | absent => exact .absent
      | blank hs => exact .blank hs
    rw [h.plain_iff.1 hplain]
    decide
  | some x => exact not_mem_of_readFloat notNumeric_pipe h.reads

/-! ## The parts of a key -/

/-- The characters of a key from its end: the right, the strike, the expiry, the symbol. -/
def keyTail (s e k : List Char) : List Char :=
  k.reverse ++ '|' :: (e.reverse ++ '|' :: ("OPT".toList.reverse ++ '|' :: s.reverse))

theorem reverse_optKeyText (s e k r : String) :
    (optKeyText s e k r).toList.reverse =
      r.toList.reverse ++ '|' :: keyTail s.toList e.toList k.toList := by
  simp [optKeyText, keyTail]

variable {s s' e e' k k' : List Char}

theorem keyTail_inj (he : '|' ∉ e) (he' : '|' ∉ e') (hk : '|' ∉ k) (hk' : '|' ∉ k')
    (h : keyTail s e k = keyTail s' e' k') : s = s' ∧ e = e' ∧ k = k' := by
  have hopt : '|' ∉ "OPT".toList.reverse := by decide
  obtain ⟨hks, hrest⟩ := append_separator_inj (by simpa using hk) (by simpa using hk') h
  obtain ⟨hes, hrest⟩ := append_separator_inj (by simpa using he) (by simpa using he') hrest
  obtain ⟨-, hss⟩ := append_separator_inj hopt hopt hrest
  exact ⟨List.reverse_injective hss, List.reverse_injective hes, List.reverse_injective hks⟩

/-- A right that is the separator does not end another key without a right. -/
theorem keyTail_ne (he : '|' ∉ e) (hk : '|' ∉ k) (hk' : '|' ∉ k') (he' : '|' ∉ e')
    (hopt : e' ≠ "OPT".toList) : keyTail s e k ≠ '|' :: keyTail s' e' k' := by
  intro h
  have hnone : '|' ∉ ([] : List Char) := List.not_mem_nil
  have hopt' : '|' ∉ "OPT".toList.reverse := by decide
  obtain ⟨-, hrest⟩ := append_separator_inj (by simpa using hk) hnone
    (show k.reverse ++ '|' :: _ = [] ++ '|' :: keyTail s' e' k' from h)
  obtain ⟨-, hrest⟩ := append_separator_inj (by simpa using he) (by simpa using hk') hrest
  obtain ⟨hes, -⟩ := append_separator_inj hopt' (by simpa using he') hrest
  exact hopt (List.reverse_injective hes).symm

/-- The parts of a key, where the right has one letter at most. -/
theorem rightKey_inj {r r' : Option Char} (he : '|' ∉ e) (he' : '|' ∉ e') (hk : '|' ∉ k)
    (hk' : '|' ∉ k') (hopt : e ≠ "OPT".toList) (hopt' : e' ≠ "OPT".toList)
    (h : r.toList ++ '|' :: keyTail s e k = r'.toList ++ '|' :: keyTail s' e' k') :
    s = s' ∧ e = e' ∧ k = k' ∧ r = r' := by
  cases r with
  | none =>
    cases r' with
    | none =>
      obtain ⟨hs, hes, hks⟩ := keyTail_inj he he' hk hk' (List.cons.inj h).2
      exact ⟨hs, hes, hks, rfl⟩
    | some c' => exact absurd (List.cons.inj h).2 (keyTail_ne he hk hk' he' hopt')
  | some c =>
    cases r' with
    | none => exact absurd (List.cons.inj h).2.symm (keyTail_ne he' hk' hk he hopt)
    | some c' =>
      obtain ⟨rfl, hrest⟩ := List.cons.inj h
      obtain ⟨hs, hes, hks⟩ := keyTail_inj he he' hk hk' (List.cons.inj hrest).2
      exact ⟨hs, hes, hks, rfl⟩

/-! ## The right of a key -/

theorem oneLetter_eq (right : String) : oneLetter right = String.ofList (right.toList.take 1) := by
  rw [oneLetter]
  cases hs : right.toList with
  | nil =>
    have hempty : right = "" := String.toList_inj.1 hs
    subst hempty
    decide
  | cons c cs =>
    have hletter : ∀ d, c = d → String.ofList [d] = String.ofList ((c :: cs).take 1) := by
      rintro d rfl
      rfl
    split_ifs with hlong hC hP
    · exact hletter 'C' (Option.some.inj hC)
    · exact hletter 'P' (Option.some.inj hP)
    · rfl
    · have hnil : cs = [] := by
        rw [← String.length_toList, hs, List.length_cons] at hlong
        exact List.length_eq_zero_iff.1 (by omega)
      rw [← String.toList_inj, hs, hnil, String.toList_ofList]
      rfl

/-- The right of a key is the letter of the row's right. -/
theorem fallbackRight_toList (row : FallbackRow) :
    (fallbackRight row).toList = (rowRight row).toList := by
  have htake : ∀ cs : List Char, cs.take 1 = cs.head?.toList := fun cs => by cases cs <;> rfl
  rw [fallbackRight, oneLetter_eq, rowRight]
  generalize (upper (strip (textOrEmpty row.right))).toList = second
  cases (upper (strip (textOrEmpty row.optionRight))).toList with
  | nil =>
    have hblank : String.ofList (([] : List Char).take 1) = "" := rfl
    rw [if_pos hblank, String.toList_ofList, htake]
    rfl
  | cons c cs =>
    have hletter : String.ofList ((c :: cs).take 1) ≠ "" := fun h => by
      simpa using congrArg String.toList h
    rw [if_neg hletter, String.toList_ofList]
    rfl

/-! ## The keys -/

section Keys

variable {r r' : FallbackRow}

theorem readFallbackOptKey_of_parts (hr : Keyless r) {e k : String}
    (he : fallbackExpiryText r.expiry = some e) (hk : fallbackStrike r.strike = some k) :
    readFallbackOptKey r =
      some (some (optKeyText (strip (textOrEmpty r.symbol)) e k (fallbackRight r))) := by
  rw [readFallbackOptKey, if_neg (not_not.2 hr.secType), if_neg (not_not.2 hr.contractKey), he, hk]
  rfl

/-- What a key is made of. -/
structure KeyParts (r : FallbackRow) (d : Option Date) (x : Option ℚ) (e k : String) : Prop where
  expiry : ExpiryReads r.expiry d
  strike : StrikeReads r.strike x
  digits : e.toList = dateChars r.expiry d
  printed : StrikePrinted r.strike x k
  key : readFallbackOptKey r =
    some (some (optKeyText (strip (textOrEmpty r.symbol)) e k (fallbackRight r)))

theorem exists_keyParts (hr : Keyless r) {d : Option Date} {x : Option ℚ}
    (hd : ExpiryReads r.expiry d) (hx : StrikeReads r.strike x) : ∃ e k, KeyParts r d x e k := by
  obtain ⟨e, he, hdigits⟩ := fallbackExpiryText_of_reads hd
  obtain ⟨k, hk⟩ := exists_strikePrinted hx
  exact ⟨e, k, hd, hx, hdigits, hk, readFallbackOptKey_of_parts hr he hk.printed⟩

variable {d d' : Option Date} {x x' : Option ℚ} {e e' k k' : String}

theorem KeyParts.noPipe_expiry (h : KeyParts r d x e k) : '|' ∉ e.toList := fun hmem => by
  rw [h.digits] at hmem
  exact absurd (isDigit_dateChars _ _ _ hmem) (by decide)

theorem KeyParts.expiry_ne (h : KeyParts r d x e k) : e.toList ≠ "OPT".toList := fun heq => by
  have hdigit := isDigit_dateChars r.expiry d 'O'
  rw [← h.digits, heq] at hdigit
  exact absurd (hdigit (by decide)) (by decide)

/-- Keys are equal exactly where their parts are. -/
theorem KeyParts.key_eq_iff (h : KeyParts r d x e k) (h' : KeyParts r' d' x' e' k') :
    readFallbackOptKey r = readFallbackOptKey r' ↔
      strip (textOrEmpty r.symbol) = strip (textOrEmpty r'.symbol) ∧ e = e' ∧ k = k' ∧
        rowRight r = rowRight r' := by
  rw [h.key, h'.key, Option.some.injEq, Option.some.injEq, ← String.toList_inj,
    ← List.reverse_inj, reverse_optKeyText, reverse_optKeyText, fallbackRight_toList,
    fallbackRight_toList]
  have hreverse : ∀ o : Option Char, o.toList.reverse = o.toList := fun o => by cases o <;> rfl
  rw [hreverse, hreverse]
  constructor
  · intro hkeys
    obtain ⟨hs, he, hk, hr⟩ := rightKey_inj h.noPipe_expiry h'.noPipe_expiry
      (h.printed.noPipe h.strike) (h'.printed.noPipe h'.strike) h.expiry_ne h'.expiry_ne hkeys
    exact ⟨String.toList_inj.1 hs, String.toList_inj.1 he, String.toList_inj.1 hk, hr⟩
  · rintro ⟨hs, rfl, rfl, hr⟩
    rw [hs, hr]

/-- Equal keys are keys of one contract. -/
theorem oneContract_of_key_eq (h : KeyParts r d x e k) (h' : KeyParts r' d' x' e' k')
    (heq : readFallbackOptKey r = readFallbackOptKey r') : OneContract r r' := by
  obtain ⟨hs, rfl, rfl, hr⟩ := (h.key_eq_iff h').1 heq
  have hd : d = d' := dateChars_inj (h.digits.symm.trans h'.digits)
  have hx : x = x' := h.printed.inj h'.printed
  subst hd
  subst hx
  exact ⟨hs, ⟨d, h.expiry, h'.expiry⟩, ⟨x, h.strike, h'.strike⟩, hr⟩

theorem expiryReads_unique {v : PayloadValue} (h : ExpiryReads v d) (h' : ExpiryReads v d') :
    d = d' := by
  obtain ⟨e, he, hdigits⟩ := fallbackExpiryText_of_reads h
  obtain ⟨e', he', hdigits'⟩ := fallbackExpiryText_of_reads h'
  rw [he] at he'
  obtain rfl := Option.some.inj he'
  exact dateChars_inj (hdigits.symm.trans hdigits')

/-- The keys of two rows of one contract are equal exactly where expiry and strike are spelled
alike. -/
theorem key_eq_iff_alike (hr : Keyless r) (hr' : Keyless r') (hone : OneContract r r') :
    readFallbackOptKey r = readFallbackOptKey r' ↔
      StrikesAlike r.strike r'.strike ∧ ExpiriesAlike r.expiry r'.expiry := by
  obtain ⟨d, hd, hd'⟩ := hone.expiry
  obtain ⟨x, hx, hx'⟩ := hone.strike
  obtain ⟨e, k, h⟩ := exists_keyParts hr hd hx
  obtain ⟨e', k', h'⟩ := exists_keyParts hr' hd' hx'
  have hexpiry : e = e' ↔ ExpiriesAlike r.expiry r'.expiry := by
    rw [← String.toList_inj, h.digits, h'.digits, dateChars_eq_iff]
    constructor
    · intro halike date hdate
      exact halike date (expiryReads_unique hd hdate)
    · rintro halike date rfl
      exact halike date hd
  rw [h.key_eq_iff h', h.printed.eq_iff h'.printed, hexpiry]
  constructor
  · exact fun hparts => ⟨hparts.2.2.1, hparts.2.1⟩
  · exact fun hparts => ⟨hone.symbol, hparts.2, hparts.1, hone.right⟩

/-- The keys of two rows tell their contracts apart, and they are equal for one contract unless it
is spelled in two ways. -/
theorem keysIdentify_iff (hr : Keyless r) (hr' : Keyless r') (h : Represented r)
    (h' : Represented r') :
    KeysIdentify r r' ↔
      (OneContract r r' →
        StrikesAlike r.strike r'.strike ∧ ExpiriesAlike r.expiry r'.expiry) := by
  obtain ⟨⟨d, hd⟩, x, hx⟩ := h
  obtain ⟨⟨d', hd'⟩, x', hx'⟩ := h'
  obtain ⟨e, k, hparts⟩ := exists_keyParts hr hd hx
  obtain ⟨e', k', hparts'⟩ := exists_keyParts hr' hd' hx'
  constructor
  · intro hidentify hone
    exact (key_eq_iff_alike hr hr' hone).1 (hidentify.2 hone)
  · intro halike
    constructor
    · exact oneContract_of_key_eq hparts hparts'
    · intro hone
      exact (key_eq_iff_alike hr hr' hone).2 (halike hone)

end Keys

/-! ## Rows of the golden test -/

/-- The expiry of the golden rows. -/
def goldenDate : Date := ⟨2026, 3, 20, by decide, by decide, by decide⟩

theorem keyless_goldenRow (strike : PayloadValue) : Keyless (goldenRow strike) := by
  have hsec : upper (strip (textOrEmpty (some "OPT"))) = "OPT" := by decide +kernel
  have hkey : strip (textOrEmpty none) = "" := by decide +kernel
  exact ⟨hsec, hkey⟩

theorem goldenRow_expiry (strike : PayloadValue) :
    ExpiryReads (goldenRow strike).expiry (some goldenDate) :=
  .text (by decide +kernel)

theorem represented_goldenRow {strike : PayloadValue} {x : Option ℚ} (h : StrikeReads strike x) :
    Represented (goldenRow strike) :=
  ⟨⟨_, goldenRow_expiry strike⟩, ⟨x, h⟩⟩

theorem keysIdentify_golden :
    KeysIdentify (goldenRow (.text "82.5")) (goldenRow (.float (.fin (165 / 2)))) := by
  have htext : readFloat "82.5" = some (.fin (165 / 2)) := by decide +kernel
  refine (keysIdentify_iff (keyless_goldenRow _) (keyless_goldenRow _)
    (represented_goldenRow (.text htext)) (represented_goldenRow (.float ?_))).2 fun _ => ⟨?_, ?_⟩
  · decide +kernel
  · exact .inl ⟨.text htext (by decide +kernel), .float _⟩
  · exact fun _ _ => .inr rfl

/-- `"80.0"` and `80` are one strike with two keys. -/
theorem not_keysIdentify_eighty :
    Represented (goldenRow (.text "80.0")) ∧ Represented (goldenRow (.int 80)) ∧
      ¬ KeysIdentify (goldenRow (.text "80.0")) (goldenRow (.int 80)) := by
  have htext : StrikeReads (.text "80.0") (some 80) := .text (by decide +kernel)
  have hint : StrikeReads (.int 80) (some 80) := .int (by decide +kernel)
  refine ⟨represented_goldenRow htext, represented_goldenRow hint, fun h => ?_⟩
  have hone : OneContract (goldenRow (.text "80.0")) (goldenRow (.int 80)) :=
    ⟨rfl, ⟨_, goldenRow_expiry _, goldenRow_expiry _⟩, ⟨_, htext, hint⟩, rfl⟩
  have hkeys := h.2 hone
  have hdiffer : readFallbackOptKey (goldenRow (.text "80.0")) ≠
      readFallbackOptKey (goldenRow (.int 80)) := by decide +kernel
  exact hdiffer hkeys

end Portfolio
