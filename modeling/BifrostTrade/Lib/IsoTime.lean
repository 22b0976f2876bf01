import BifrostTrade.Lib.Calendar
import BifrostTrade.Lib.Octets

/-!
# ISO 8601 dates and times

`date` and `datetime` in the text of `isoformat`, and `fromisoformat` of CPython 3.11.  The reader
takes many spellings of one value: basic and week dates, any separator, `Z`, a comma, fewer or more
digits of a second.  It reads every text that `isoformat` writes, but an offset of less than a
second, which it takes for UTC (`fromIso_isoformat_iff`).
-/

namespace Py

/-- A `datetime`, with the offset of an aware one in microseconds. -/
@[ext]
structure DateTime where
  date : Date
  hour : ℕ
  minute : ℕ
  second : ℕ
  microsecond : ℕ
  offset : Option ℤ
  clock_lt : hour < 24 ∧ minute < 60 ∧ second < 60 ∧ microsecond < 1000000
  offset_lt : ∀ o ∈ offset, o.natAbs < 86400000000
  deriving DecidableEq

namespace Iso

/-! ## Reading -/

/-- `*p`; a text ends with a NUL. -/
def peek (bs : List ℕ) : ℕ := bs.headD 0

/-- An ASCII digit. -/
def isDigitByte (b : ℕ) : Bool := 48 ≤ b ∧ b ≤ 57

/-- `parse_digits`: so many digits, on top of a value. -/
def parseDigits : ℕ → ℕ → List ℕ → Option (ℕ × List ℕ)
  | 0, value, bs => some (value, bs)
  | _ + 1, _, [] => none
  | n + 1, value, b :: bs =>
      if isDigitByte b then parseDigits n (value * 10 + (b - 48)) bs else none

/-- `iso_to_ymd`. -/
def isoWeekDate (year week day : ℕ) : Option Date :=
  (Date.ofYmd year 1 1).bind fun first =>
    let longYear : Bool := first.weekday = 3 ∨ first.weekday = 2 ∧ isLeap year
    if week = 0 ∨ 53 < week ∨ week = 53 ∧ longYear = false ∨ day = 0 ∨ 7 < day then none
    else
      let monday := first.toOrdinal - first.weekday + if 3 < first.weekday then 7 else 0
      Date.ofOrdinal (monday + (week - 1) * 7 + (day - 1))

/-- A dash, where the text uses dashes. -/
def dashIf (separated : Bool) (bs : List ℕ) : Option (List ℕ) :=
  if separated then (if peek bs = 45 then some bs.tail else none) else some bs

/-- `parse_isoformat_date` of the first `len` bytes; it does not look whether they are all read. -/
def parseIsoDate (len : ℕ) (bs : List ℕ) : Option Date :=
  (parseDigits 4 0 bs).bind fun (year, bs) =>
    let separated : Bool := peek bs = 45
    let bs := if separated then bs.tail else bs
    if peek bs = 87 then
      (parseDigits 2 0 bs.tail).bind fun (week, bs) =>
        if (if separated then 8 else 7) < len then
          (dashIf separated bs).bind fun bs =>
            (parseDigits 1 0 bs).bind fun (day, _) => isoWeekDate year week day
        else isoWeekDate year week 1
    else
      (parseDigits 2 0 bs).bind fun (month, bs) =>
        (dashIf separated bs).bind fun bs =>
          (parseDigits 2 0 bs).bind fun (day, _) => Date.ofYmd year month day

/-- `date.fromisoformat(s)` of code points; `none` where it raises `ValueError`. -/
def dateFromIso (points : List ℕ) : Option Date :=
  (Octets.utf8Encode points).bind fun bs =>
    if bs.length = 7 ∨ bs.length = 8 ∨ bs.length = 10 then parseIsoDate bs.length bs else none

/-- The fields of a time as far as they are given, its microseconds, and whether more follows. -/
structure ClockFields where
  fields : List ℕ
  microsecond : ℕ
  more : Bool

/-- A field of the clock; one that is not there is zero. -/
def ClockFields.field (c : ClockFields) (i : ℕ) : ℕ := c.fields.getD i 0

/-- The fraction of a second; digits after the sixth are skipped. -/
def parseFraction (bs : List ℕ) (count : ℕ) : Option ClockFields :=
  let digits := min count 6
  (parseDigits digits 0 bs).map fun (value, bs) =>
    ⟨[], value * 10 ^ (6 - digits), peek (bs.dropWhile isDigitByte) ≠ 0⟩

/-- The loop of `parse_hh_mm_ss_ff` over the fields that are left; `count` bytes are up to the end
of the time. -/
def parseClock : ℕ → Bool → List ℕ → ℕ → Option ClockFields
  | 0, _, bs, count => parseFraction bs count
  | left + 1, separated, bs, count =>
      (parseDigits 2 0 bs).bind fun (value, bs) =>
        let c := peek bs
        let separated : Bool := if left = 2 then c = 58 else separated
        let continued (rest : Option ClockFields) : Option ClockFields :=
          rest.map fun r => { r with fields := value :: r.fields }
        if count ≤ 3 then some ⟨[value], 0, c ≠ 0⟩
        else if separated ∧ c = 58 then continued (parseClock left separated bs.tail (count - 3))
        else if c = 46 ∨ c = 44 then continued (parseFraction bs.tail (count - 3))
        else if separated = false then continued (parseClock left separated bs (count - 2))
        else none

/-- `Z` or a sign. -/
def isZoneByte (b : ℕ) : Bool := b = 43 ∨ b = 45 ∨ b = 90

/-- `parse_isoformat_time`: the time of day, and the offset in microseconds if there is one.  An
offset of no full second is UTC. -/
def parseIsoTime (bs : List ℕ) (count : ℕ) : Option (ClockFields × Option ℤ) :=
  let zone := ((bs.take count).takeWhile fun b => !isZoneByte b).length
  (parseClock 3 true bs zone).bind fun clock =>
    if zone = count then if clock.more then none else some (clock, none)
    else if peek (bs.drop zone) = 90 then
      if peek (bs.drop (zone + 1)) = 0 then some (clock, some 0) else none
    else
      (parseClock 3 true (bs.drop (zone + 1)) (count - zone - 1)).bind fun o =>
        let seconds := o.field 0 * 3600 + o.field 1 * 60 + o.field 2
        let micros : ℤ := if seconds = 0 then 0 else (seconds * 1000000 + o.microsecond : ℕ)
        if o.more then none
        else some (clock, some (if peek (bs.drop zone) = 45 then -micros else micros))

/-- `_find_isoformat_datetime_separator`. -/
def findSeparator (bs : List ℕ) : Option ℕ :=
  if bs.length = 7 then some 7
  else if bs.getD 4 0 = 45 then
    if bs.getD 5 0 = 87 then
      if 8 < bs.length ∧ bs.getD 8 0 = 45 then
        if bs.length = 9 then none
        else if 10 < bs.length ∧ isDigitByte (bs.getD 10 0) then some 8
        else some 10
      else some 8
    else some 10
  else if bs.getD 4 0 = 87 then
    let pos := 7 + ((bs.drop 7).takeWhile isDigitByte).length
    if pos < 9 then some pos else if pos % 2 = 0 then some 7 else some 8
  else some 8

/-- The bytes of the character that separates date and time. -/
def separatorBytes (b : ℕ) : ℕ :=
  if b < 128 then 1 else if b / 16 = 14 then 3 else if b / 16 = 15 then 4 else 2

/-- `_sanitize_isoformat_str`: a surrogate for the separator. -/
def sanitizeIso (points : List ℕ) : Option (List ℕ) :=
  let isSurrogate (i : ℕ) : Bool := points[i]?.any fun n => 55296 ≤ n ∧ n < 57344
  if points.length < 7 then none
  else some (match [7, 8, 10].find? isSurrogate with
    | some i => points.set i 84
    | none => points)

/-- A datetime from its parts, where they are in range. -/
def ofParts (date : Date) (clock : ClockFields) (offset : Option ℤ) : Option DateTime :=
  if h : (clock.field 0 < 24 ∧ clock.field 1 < 60 ∧ clock.field 2 < 60 ∧
      clock.microsecond < 1000000) ∧ ∀ o ∈ offset, o.natAbs < 86400000000 then
    some ⟨date, clock.field 0, clock.field 1, clock.field 2, clock.microsecond, offset, h.1, h.2⟩
  else none

/-- `datetime.fromisoformat(s)` of code points; `none` where it raises `ValueError`. -/
def datetimeFromIso (points : List ℕ) : Option DateTime :=
  (sanitizeIso points).bind fun points => (Octets.utf8Encode points).bind fun bs =>
    (findSeparator bs).bind fun sep => (parseIsoDate sep bs).bind fun date =>
      if bs.length ≤ sep then ofParts date ⟨[], 0, false⟩ none
      else
        let start := sep + separatorBytes (bs.getD sep 0)
        (parseIsoTime (bs.drop start) (bs.length - start)).bind fun t => ofParts date t.1 t.2

/-! ## Writing -/

/-- A number below a hundred. -/
def twoDigits (n : ℕ) : List Char := [Date.digit (n / 10), Date.digit n]

/-- A number below a million. -/
def sixDigits (n : ℕ) : List Char :=
  [Date.digit (n / 100000), Date.digit (n / 10000), Date.digit (n / 1000), Date.digit (n / 100),
    Date.digit (n / 10), Date.digit n]

/-- A time of day, or an offset with its seconds. -/
def clockChars (hour minute second micros : ℕ) : List Char :=
  twoDigits hour ++ ':' :: twoDigits minute ++ ':' :: twoDigits second ++
    if micros ≠ 0 then '.' :: sixDigits micros else []

/-- The size of an offset, with its seconds and microseconds where it has some. -/
def offsetSizeChars (size : ℕ) : List Char :=
  let seconds := size / 1000000
  let micros := size % 1000000
  if micros ≠ 0 ∨ seconds % 60 ≠ 0 then
    clockChars (seconds / 3600) (seconds / 60 % 60) (seconds % 60) micros
  else twoDigits (seconds / 3600) ++ ':' :: twoDigits (seconds / 60 % 60)

/-- The offset of an aware time. -/
def offsetChars (o : ℤ) : List Char := (if o < 0 then '-' else '+') :: offsetSizeChars o.natAbs

end Iso

open Iso in
/-- The characters of `isoformat()`. -/
def DateTime.isoChars (t : DateTime) : List Char :=
  t.date.isoChars ++ 'T' :: clockChars t.hour t.minute t.second t.microsecond ++
    t.offset.elim [] offsetChars

/-- `datetime.isoformat()`. -/
def DateTime.isoformat (t : DateTime) : String := String.ofList t.isoChars

namespace Iso

/-! ## Digits -/

/-- The code points of a text. -/
def codes (cs : List Char) : List ℕ := cs.map Char.toNat

@[simp] theorem codes_cons (c : Char) (cs : List Char) : codes (c :: cs) = c.toNat :: codes cs :=
  rfl

@[simp] theorem codes_nil : codes [] = [] := rfl

@[simp] theorem codes_append (cs ds : List Char) : codes (cs ++ ds) = codes cs ++ codes ds :=
  List.map_append

@[simp] theorem length_codes (cs : List Char) : (codes cs).length = cs.length := List.length_map _

theorem toNat_digit (n : ℕ) : (Date.digit n).toNat = 48 + n % 10 := by
  have hall : ∀ d : Fin 10, (Date.digit d).toNat = 48 + d.val := by decide
  have h := hall ⟨n % 10, Nat.mod_lt n (by decide)⟩
  simpa [Date.digit] using h

theorem parseDigits_digit (n value m : ℕ) (bs : List ℕ) :
    parseDigits (n + 1) value ((Date.digit m).toNat :: bs) =
      parseDigits n (value * 10 + m % 10) bs := by
  have hdigit : isDigitByte (Date.digit m).toNat = true := by
    rw [toNat_digit, isDigitByte]
    exact decide_eq_true (by omega)
  rw [parseDigits, if_pos hdigit, toNat_digit, Nat.add_sub_cancel_left]

theorem parseDigits_zero (value : ℕ) (bs : List ℕ) : parseDigits 0 value bs = some (value, bs) :=
  rfl

theorem parseDigits_twoDigits {n : ℕ} (hn : n < 100) (bs : List ℕ) :
    parseDigits 2 0 (codes (twoDigits n) ++ bs) = some (n, bs) := by
  have hvalue : (0 * 10 + n / 10 % 10) * 10 + n % 10 = n := by omega
  rw [twoDigits, codes_cons, codes_cons, codes_nil, List.cons_append, List.singleton_append,
    parseDigits_digit, parseDigits_digit, hvalue, parseDigits]

theorem parseDigits_sixDigits {n : ℕ} (hn : n < 1000000) (bs : List ℕ) :
    parseDigits 6 0 (codes (sixDigits n) ++ bs) = some (n, bs) := by
  have hvalue : (((((0 * 10 + n / 100000 % 10) * 10 + n / 10000 % 10) * 10 + n / 1000 % 10) * 10 +
      n / 100 % 10) * 10 + n / 10 % 10) * 10 + n % 10 = n := by omega
  simp only [sixDigits, codes_cons, codes_nil, List.cons_append, List.nil_append,
    parseDigits_digit]
  rw [hvalue, parseDigits]

/-! ## Times of day -/

theorem length_clockChars (h m s us : ℕ) :
    (clockChars h m s us).length = if us ≠ 0 then 15 else 8 := by
  unfold clockChars twoDigits sixDigits
  split_ifs <;> rfl

/-- Digits, colons and a point. -/
theorem mem_clockChars (h m s us : ℕ) :
    ∀ n ∈ codes (clockChars h m s us), 46 ≤ n ∧ n ≤ 58 := by
  unfold clockChars twoDigits sixDigits
  split_ifs
  · simp [toNat_digit]
    omega
  · simp [toNat_digit]
    omega

/-- What may follow a time: nothing, or no digit. -/
def EndsClock (rest : List ℕ) : Prop := isDigitByte (peek rest) = false

theorem dropWhile_of_endsClock {rest : List ℕ} (h : EndsClock rest) :
    rest.dropWhile isDigitByte = rest := by
  cases rest with
  | nil => rfl
  | cons b rest => exact List.dropWhile_cons_of_neg (by simpa [EndsClock, peek] using h)

/-- A time of day is read as its fields. -/
theorem parseClock_clockChars {h m s us : ℕ} (hh : h < 100) (hm : m < 100) (hs : s < 100)
    (hus : us < 1000000) (rest : List ℕ) (hrest : EndsClock rest) :
    parseClock 3 true (codes (clockChars h m s us) ++ rest) (clockChars h m s us).length =
      some ⟨[h, m, s], us, peek rest ≠ 0⟩ := by
  rw [length_clockChars]
  unfold clockChars
  by_cases hzero : us = 0
  · subst hzero
    simp only [ne_eq, not_true_eq_false, if_false, codes_append, codes_cons, List.append_nil,
      List.append_assoc, List.cons_append]
    simp [parseClock, parseDigits_twoDigits hh, parseDigits_twoDigits hm, parseDigits_twoDigits hs,
      peek]
  · simp only [ne_eq, hzero, not_false_eq_true, if_true, codes_append, codes_cons,
      List.append_assoc, List.cons_append]
    simp [parseClock, parseDigits_twoDigits hh, parseDigits_twoDigits hm, parseDigits_twoDigits hs,
      peek, parseFraction, parseDigits_sixDigits hus, dropWhile_of_endsClock hrest]

/-- An offset of hours and minutes. -/
theorem parseClock_hours {h m : ℕ} (hh : h < 100) (hm : m < 100) :
    parseClock 3 true (codes (twoDigits h ++ ':' :: twoDigits m)) 5 = some ⟨[h, m], 0, false⟩ := by
  have hlast : parseDigits 2 0 (codes (twoDigits m)) = some (m, []) := by
    have := parseDigits_twoDigits hm []
    rwa [List.append_nil] at this
  rw [codes_append, codes_cons]
  simp [parseClock, parseDigits_twoDigits hh, hlast, peek]

/-! ## Offsets -/

/-- The size of an offset is read as its seconds and microseconds. -/
theorem parseClock_offsetSize {size : ℕ} (h : size < 86400000000) :
    ∃ c, parseClock 3 true (codes (offsetSizeChars size)) (offsetSizeChars size).length = some c ∧
      c.more = false ∧ c.field 0 * 3600 + c.field 1 * 60 + c.field 2 = size / 1000000 ∧
      c.microsecond = size % 1000000 := by
  have hhour : size / 1000000 / 3600 < 100 := by omega
  have hminute : size / 1000000 / 60 % 60 < 100 := by omega
  have hsum : size / 1000000 / 3600 * 3600 + size / 1000000 / 60 % 60 * 60 +
      size / 1000000 % 60 = size / 1000000 := by omega
  unfold offsetSizeChars
  dsimp only
  split_ifs with hlong
  · have hread := parseClock_clockChars hhour hminute (show size / 1000000 % 60 < 100 by omega)
      (show size % 1000000 < 1000000 by omega) [] rfl
    rw [List.append_nil] at hread
    exact ⟨_, hread, rfl, hsum, rfl⟩
  · have hsecond : size / 1000000 % 60 = 0 := by omega
    have hmicro : size % 1000000 = 0 := by omega
    rw [hsecond] at hsum
    exact ⟨_, parseClock_hours hhour hminute, rfl, hsum, hmicro.symm⟩

/-- What the reader makes of an offset: nothing under a second. -/
def readOffset (o : ℤ) : ℤ := if o.natAbs < 1000000 then 0 else o

theorem peek_offsetChars (o : ℤ) :
    peek (codes (offsetChars o)) = if o < 0 then 45 else 43 := by
  rw [offsetChars]
  split_ifs <;> rfl

theorem endsClock_offsetChars (o : ℤ) : EndsClock (codes (offsetChars o)) := by
  rw [EndsClock, peek_offsetChars]
  split_ifs <;> rfl

theorem not_isZoneByte_clock (h m s us : ℕ) :
    ∀ n ∈ codes (clockChars h m s us), (!isZoneByte n) = true := by
  intro n hn
  have hrange := mem_clockChars h m s us n hn
  have hnot : isZoneByte n = false := by
    rw [isZoneByte]
    exact decide_eq_false (by omega)
  rw [hnot]
  rfl

/-- A time with an offset is read as both. -/
theorem parseIsoTime_offset {h m s us : ℕ} (hh : h < 100) (hm : m < 100) (hs : s < 100)
    (hus : us < 1000000) {o : ℤ} (ho : o.natAbs < 86400000000) :
    ∃ clock : ClockFields,
      parseIsoTime (codes (clockChars h m s us ++ offsetChars o))
        (clockChars h m s us ++ offsetChars o).length = some (clock, some (readOffset o)) ∧
      clock.fields = [h, m, s] ∧ clock.microsecond = us := by
  obtain ⟨c, hc, hmore, hseconds, hmicros⟩ := parseClock_offsetSize ho
  have hzoneByte : (!isZoneByte (peek (codes (offsetChars o)))) = false := by
    rw [peek_offsetChars]
    split_ifs <;> rfl
  have hzone : (((codes (clockChars h m s us ++ offsetChars o)).take
      (clockChars h m s us ++ offsetChars o).length).takeWhile fun b => !isZoneByte b).length =
        (clockChars h m s us).length := by
    rw [← length_codes (clockChars h m s us ++ offsetChars o), List.take_length, codes_append,
      List.takeWhile_append_of_pos (not_isZoneByte_clock h m s us), offsetChars, codes_cons,
      List.takeWhile_cons_of_neg (by rw [offsetChars] at hzoneByte; simpa [peek] using hzoneByte),
      List.append_nil, length_codes]
  have hdrop : (codes (clockChars h m s us ++ offsetChars o)).drop (clockChars h m s us).length =
      codes (offsetChars o) := by
    rw [codes_append]
    exact List.drop_left' (length_codes _)
  have hrest : (codes (clockChars h m s us ++ offsetChars o)).drop
      ((clockChars h m s us).length + 1) = codes (offsetSizeChars o.natAbs) := by
    rw [← List.drop_drop, hdrop]
    rfl
  have hlength : (clockChars h m s us ++ offsetChars o).length =
      (clockChars h m s us).length + 1 + (offsetSizeChars o.natAbs).length := by
    rw [List.length_append, offsetChars, List.length_cons]
    omega
  have hclock := parseClock_clockChars hh hm hs hus _ (endsClock_offsetChars o)
  rw [← codes_append] at hclock
  refine ⟨⟨[h, m, s], us, decide (peek (codes (offsetChars o)) ≠ 0)⟩, ?_, rfl, rfl⟩
  unfold parseIsoTime
  dsimp only
  rw [hzone, hclock, Option.bind_some, if_neg (by omega), hdrop, hrest, hlength]
  have hcount : (clockChars h m s us).length + 1 + (offsetSizeChars o.natAbs).length -
      (clockChars h m s us).length - 1 = (offsetSizeChars o.natAbs).length := by omega
  rw [hcount, hc, Option.bind_some, hmore, hseconds, hmicros, peek_offsetChars]
  have hvalue : (if (if o < 0 then 45 else 43) = 45 then
      -(if o.natAbs / 1000000 = 0 then 0
        else ((o.natAbs / 1000000 * 1000000 + o.natAbs % 1000000 : ℕ) : ℤ))
      else (if o.natAbs / 1000000 = 0 then 0
        else ((o.natAbs / 1000000 * 1000000 + o.natAbs % 1000000 : ℕ) : ℤ))) = readOffset o := by
    unfold readOffset
    split_ifs <;> omega
  rw [if_neg (by split_ifs <;> decide), hvalue]
  rfl

theorem parseIsoTime_naive {h m s us : ℕ} (hh : h < 100) (hm : m < 100) (hs : s < 100)
    (hus : us < 1000000) :
    parseIsoTime (codes (clockChars h m s us)) (clockChars h m s us).length =
      some (⟨[h, m, s], us, false⟩, none) := by
  have hzone : (((codes (clockChars h m s us)).take (clockChars h m s us).length).takeWhile
      fun b => !isZoneByte b).length = (clockChars h m s us).length := by
    rw [← length_codes (clockChars h m s us), List.take_length]
    congr 1
    exact List.takeWhile_eq_self_iff.2 (not_isZoneByte_clock h m s us)
  have hclock := parseClock_clockChars hh hm hs hus [] rfl
  rw [List.append_nil] at hclock
  unfold parseIsoTime
  dsimp only
  rw [hzone, hclock, Option.bind_some, if_pos rfl]
  rfl

/-! ## Dates -/

theorem ofYmd_self (d : Date) : Date.ofYmd d.year d.month d.day = some d := by
  unfold Date.ofYmd
  rw [dif_pos ⟨d.year_mem, d.month_mem, d.day_mem⟩]

/-- The date at the start of a text is read whatever follows. -/
theorem parseIsoDate_isoChars (d : Date) (len : ℕ) (rest : List ℕ) :
    parseIsoDate len (codes d.isoChars ++ rest) = some d := by
  have hyear := d.year_mem
  have hmonth := d.month_mem
  have hday := Date.day_le d
  have hyearValue : (((0 * 10 + d.year / 1000 % 10) * 10 + d.year / 100 % 10) * 10 +
      d.year / 10 % 10) * 10 + d.year % 10 = d.year := by omega
  have hmonthValue : (0 * 10 + d.month / 10 % 10) * 10 + d.month % 10 = d.month := by omega
  have hdayValue : (0 * 10 + d.day / 10 % 10) * 10 + d.day % 10 = d.day := by omega
  have hweek : (Date.digit (d.month / 10)).toNat ≠ 87 := by
    rw [toNat_digit]
    omega
  have hdash : '-'.toNat = 45 := rfl
  unfold parseIsoDate Date.isoChars
  simp only [codes_cons, codes_nil, List.cons_append, List.nil_append, parseDigits_digit,
    parseDigits_zero, Option.bind_some, hyearValue, peek, hdash, List.headD_cons, List.tail_cons,
    decide_true, if_true, if_neg hweek, hmonthValue, dashIf, hdayValue]
  exact ofYmd_self d

theorem ascii_isoChars (d : Date) : ∀ n ∈ codes d.isoChars, n < 128 := by
  unfold Date.isoChars
  simp [toNat_digit]
  omega

/-- A date is read back. -/
theorem dateFromIso_isoChars (d : Date) : dateFromIso (codes d.isoChars) = some d := by
  have hlength : (codes d.isoChars).length = 10 := rfl
  have hread := parseIsoDate_isoChars d 10 []
  rw [List.append_nil] at hread
  rw [dateFromIso, Octets.utf8Encode_ascii (ascii_isoChars d), Option.bind_some, hlength,
    if_pos (by decide), hread]

/-! ## Datetimes -/

/-- What follows the separator. -/
def clockAndOffset (t : DateTime) : List Char :=
  clockChars t.hour t.minute t.second t.microsecond ++ t.offset.elim [] offsetChars

theorem codes_isoChars (t : DateTime) :
    codes t.isoChars = codes t.date.isoChars ++ 84 :: codes (clockAndOffset t) := by
  have htee : 'T'.toNat = 84 := rfl
  rw [DateTime.isoChars, clockAndOffset]
  simp only [codes_append, codes_cons, List.append_assoc, List.cons_append, htee]

theorem ascii_clock (h m s us : ℕ) : ∀ n ∈ codes (clockChars h m s us), n < 128 := by
  intro n hn
  have hrange := mem_clockChars h m s us n hn
  omega

theorem ascii_offsetChars (o : ℤ) : ∀ n ∈ codes (offsetChars o), n < 128 := by
  have hsize : ∀ n ∈ codes (offsetSizeChars o.natAbs), n < 128 := by
    unfold offsetSizeChars twoDigits
    dsimp only
    split_ifs
    · exact ascii_clock _ _ _ _
    · simp [toNat_digit]
      omega
  rw [offsetChars, codes_cons]
  refine List.forall_mem_cons.2 ⟨?_, hsize⟩
  split_ifs <;> decide

theorem ascii_datetime (t : DateTime) : ∀ n ∈ codes t.isoChars, n < 128 := by
  rw [codes_isoChars, clockAndOffset, codes_append]
  refine List.forall_mem_append.2 ⟨ascii_isoChars t.date, List.forall_mem_cons.2 ⟨by decide, ?_⟩⟩
  refine List.forall_mem_append.2 ⟨ascii_clock _ _ _ _, ?_⟩
  cases t.offset with
  | none => exact fun n hn => absurd hn List.not_mem_nil
  | some o => exact ascii_offsetChars o

theorem sanitizeIso_ascii {points : List ℕ} (hlength : 7 ≤ points.length)
    (h : ∀ n ∈ points, n < 128) : sanitizeIso points = some points := by
  have hnone :
      [7, 8, 10].find? (fun i => points[i]?.any fun n => 55296 ≤ n ∧ n < 57344) = none := by
    refine List.find?_eq_none.2 fun i _ hany => ?_
    obtain ⟨n, hn, hrange⟩ := (Option.any_eq_true _ _).1 hany
    have hsmall := h n (List.mem_of_getElem? hn)
    have hrange := of_decide_eq_true hrange
    omega
  unfold sanitizeIso
  dsimp only
  rw [if_neg (by omega), hnone]

theorem findSeparator_isoChars (d : Date) (rest : List ℕ) :
    findSeparator (codes d.isoChars ++ 84 :: rest) = some 10 := by
  have hdash : (codes d.isoChars ++ 84 :: rest).getD 4 0 = 45 := rfl
  have hmonth : (codes d.isoChars ++ 84 :: rest).getD 5 0 = 48 + d.month / 10 % 10 :=
    toNat_digit _
  have hlength : (codes d.isoChars ++ 84 :: rest).length ≠ 7 := by
    have hdate : (codes d.isoChars).length = 10 := rfl
    rw [List.length_append, hdate]
    omega
  rw [findSeparator, if_neg hlength, if_pos hdash, hmonth, if_neg (by omega)]

/-- What the reader makes of a datetime: its time with the offset it reads. -/
theorem datetimeFromIso_isoChars (t : DateTime) :
    ∃ t' : DateTime, datetimeFromIso (codes t.isoChars) = some t' ∧
      t'.offset = t.offset.map readOffset ∧ t'.date = t.date ∧ t'.hour = t.hour ∧
        t'.minute = t.minute ∧ t'.second = t.second ∧ t'.microsecond = t.microsecond := by
  obtain ⟨hhour, hminute, hsecond, hmicro⟩ := t.clock_lt
  have hdate : (codes t.date.isoChars).length = 10 := rfl
  have hlong : (codes t.isoChars).length = 11 + (clockAndOffset t).length := by
    rw [codes_isoChars, List.length_append, hdate, List.length_cons, length_codes]
    omega
  -- the time and its offset are read as such
  have htime : ∃ clock : ClockFields,
      parseIsoTime (codes (clockAndOffset t)) (clockAndOffset t).length =
        some (clock, t.offset.map readOffset) ∧
      clock.fields = [t.hour, t.minute, t.second] ∧ clock.microsecond = t.microsecond := by
    rw [clockAndOffset]
    cases hoffset : t.offset with
    | none =>
      rw [Option.elim_none, List.append_nil]
      exact ⟨_, parseIsoTime_naive (by omega) (by omega) (by omega) hmicro, rfl, rfl⟩
    | some o =>
      exact parseIsoTime_offset (by omega) (by omega) (by omega) hmicro (t.offset_lt o hoffset)
  obtain ⟨clock, hclock, hfields, hmicros⟩ := htime
  have hrange : (clock.field 0 < 24 ∧ clock.field 1 < 60 ∧ clock.field 2 < 60 ∧
      clock.microsecond < 1000000) ∧
        ∀ o ∈ t.offset.map readOffset, o.natAbs < 86400000000 := by
    refine ⟨?_, fun o ho => ?_⟩
    · simpa [ClockFields.field, hfields, hmicros] using t.clock_lt
    · obtain ⟨given, hgiven, rfl⟩ := Option.map_eq_some_iff.1 ho
      have hlt := t.offset_lt given hgiven
      unfold readOffset
      split_ifs
      · decide
      · exact hlt
  have hstart : (codes t.isoChars).drop 11 = codes (clockAndOffset t) := by
    rw [codes_isoChars]
    rfl
  have hsep : findSeparator (codes t.isoChars) = some 10 := by
    rw [codes_isoChars, findSeparator_isoChars]
  have hread : parseIsoDate 10 (codes t.isoChars) = some t.date := by
    rw [codes_isoChars, parseIsoDate_isoChars]
  have hbyte : (codes t.isoChars).getD 10 0 = 84 := by
    rw [codes_isoChars]
    rfl
  refine ⟨⟨t.date, clock.field 0, clock.field 1, clock.field 2, clock.microsecond,
    t.offset.map readOffset, hrange.1, hrange.2⟩, ?_, rfl, rfl, ?_⟩
  · rw [datetimeFromIso, sanitizeIso_ascii (by omega) (ascii_datetime t), Option.bind_some,
      Octets.utf8Encode_ascii (ascii_datetime t), Option.bind_some, hsep, Option.bind_some, hread,
      Option.bind_some, if_neg (by omega), hbyte]
    have hone : 10 + separatorBytes 84 = 11 := rfl
    dsimp only
    rw [hone, hstart, hlong, Nat.add_sub_cancel_left, hclock, Option.bind_some, ofParts,
      dif_pos hrange]
  · simp [ClockFields.field, hfields, hmicros]

/-- A datetime is read back exactly when its offset is none, zero or at least a second. -/
theorem fromIso_isoformat_iff (t : DateTime) :
    datetimeFromIso (codes t.isoChars) = some t ↔ ∀ o ∈ t.offset, o = 0 ∨ 1000000 ≤ o.natAbs := by
  obtain ⟨t', hread, hoffset, hsame⟩ := datetimeFromIso_isoChars t
  rw [hread, Option.some.injEq]
  constructor
  · rintro rfl o ho
    rw [ho, Option.map_some, Option.some.injEq] at hoffset
    unfold readOffset at hoffset
    split_ifs at hoffset with hsmall
    · exact .inl hoffset
    · exact .inr (not_lt.1 hsmall)
  · intro h
    refine DateTime.ext hsame.1 hsame.2.1 hsame.2.2.1 hsame.2.2.2.1 hsame.2.2.2.2 ?_
    rw [hoffset]
    cases ho : t.offset with
    | none => rfl
    | some o =>
      rw [Option.map_some, readOffset]
      rcases h o ho with rfl | hbig
      · rfl
      · rw [if_neg (by omega)]

end Iso

end Py
