import Mathlib.Data.Prod.Lex
import Mathlib.Data.Rat.Floor
import Mathlib.Data.String.Basic
import Mathlib.Order.Fin.Basic
import Mathlib.Tactic.Tauto

/-!
# Calendar dates

`datetime.date`: a valid year, month and day of the Gregorian calendar, ordered as such, with its
ISO text.  The texts order as the dates do (`isoformat_strictMono`).
-/

namespace Py

/-- The leap years of the Gregorian calendar. -/
def isLeap (year : ℕ) : Bool := year % 4 = 0 ∧ (year % 100 ≠ 0 ∨ year % 400 = 0)

/-- The length of a month. -/
def daysInMonth (year month : ℕ) : ℕ :=
  if month = 2 then if isLeap year then 29 else 28
  else if month = 4 ∨ month = 6 ∨ month = 9 ∨ month = 11 then 30 else 31

/-- A date between the years 1 and 9999. -/
@[ext]
structure Date where
  year : ℕ
  month : ℕ
  day : ℕ
  year_mem : 1 ≤ year ∧ year ≤ 9999
  month_mem : 1 ≤ month ∧ month ≤ 12
  day_mem : 1 ≤ day ∧ day ≤ daysInMonth year month
  deriving DecidableEq, Repr

namespace Date

theorem day_le (d : Date) : d.day ≤ 31 := by
  have h := d.day_mem.2
  unfold daysInMonth at h
  split_ifs at h <;> omega

/-! ## Order -/

/-- Year, month and day, the first that differs decides. -/
def ymd (d : Date) : ℕ ×ₗ ℕ ×ₗ ℕ := toLex (d.year, toLex (d.month, d.day))

theorem ymd_injective : Function.Injective ymd := by
  intro d e h
  simp only [ymd, EmbeddingLike.apply_eq_iff_eq, Prod.mk.injEq] at h
  exact Date.ext h.1 h.2.1 h.2.2

instance : LinearOrder Date := LinearOrder.lift' ymd ymd_injective

theorem lt_iff {d e : Date} :
    d < e ↔ d.year < e.year ∨ d.year = e.year ∧
      (d.month < e.month ∨ d.month = e.month ∧ d.day < e.day) := by
  show ymd d < ymd e ↔ _
  simp only [ymd, Prod.Lex.toLex_lt_toLex]

/-! ## Days and weeks -/

theorem one_le_daysInMonth (year month : ℕ) : 1 ≤ daysInMonth year month := by
  unfold daysInMonth
  split_ifs <;> omega

/-- A date from its parts, when they are valid. -/
def ofYmd (year month day : ℕ) : Option Date :=
  if h : (1 ≤ year ∧ year ≤ 9999) ∧ (1 ≤ month ∧ month ≤ 12) ∧
      (1 ≤ day ∧ day ≤ daysInMonth year month) then
    some ⟨year, month, day, h.1, h.2.1, h.2.2⟩
  else none

/-- The first day of the date's month. -/
def firstOfMonth (d : Date) : Date :=
  { d with day := 1, day_mem := ⟨le_rfl, one_le_daysInMonth _ _⟩ }

/-- The days of the year before a month. -/
def daysBeforeMonth (year month : ℕ) : ℕ :=
  ((List.range (month - 1)).map fun m => daysInMonth year (m + 1)).sum

/-- `date.toordinal()`. -/
def toOrdinal (d : Date) : ℕ :=
  let y := d.year - 1
  y * 365 + y / 4 - y / 100 + y / 400 + daysBeforeMonth d.year d.month + d.day

/-- `date.weekday()`: Monday is zero. -/
def weekday (d : Date) : ℕ := (d.toOrdinal + 6) % 7

/-- The day before; none before the first of the calendar. -/
def prevDay (d : Date) : Option Date :=
  if 1 < d.day then ofYmd d.year d.month (d.day - 1)
  else if 1 < d.month then ofYmd d.year (d.month - 1) (daysInMonth d.year (d.month - 1))
  else ofYmd (d.year - 1) 12 31

theorem daysBeforeMonth_succ (year : ℕ) {month : ℕ} (h : 1 ≤ month) :
    daysBeforeMonth year (month + 1) = daysBeforeMonth year month + daysInMonth year month := by
  obtain ⟨m, rfl⟩ := Nat.exists_eq_add_of_le' h
  simp [daysBeforeMonth, List.range_succ]

theorem daysBeforeMonth_december (year : ℕ) :
    daysBeforeMonth year 12 = if isLeap year then 335 else 334 := by
  have h : daysBeforeMonth year 12 = 306 + daysInMonth year 2 := by
    simp [daysBeforeMonth, List.range_succ, daysInMonth]
    omega
  rw [h, daysInMonth, if_pos rfl]
  split_ifs <;> rfl

theorem ofYmd_eq_some {year month day : ℕ} {d : Date} (h : ofYmd year month day = some d) :
    d.year = year ∧ d.month = month ∧ d.day = day := by
  unfold ofYmd at h
  split at h
  · obtain rfl := Option.some.inj h
    exact ⟨rfl, rfl, rfl⟩
  · cases h

/-- The day before has the ordinal before. -/
theorem toOrdinal_of_prevDay {d p : Date} (h : d.prevDay = some p) :
    d.toOrdinal = p.toOrdinal + 1 := by
  have hd := d.day_mem.1
  have hm := d.month_mem.1
  have hy := d.year_mem.1
  unfold prevDay at h
  split_ifs at h with hday hmonth
  · obtain ⟨hpy, hpm, hpd⟩ := ofYmd_eq_some h
    simp only [toOrdinal, hpy, hpm, hpd]
    omega
  · obtain ⟨hpy, hpm, hpd⟩ := ofYmd_eq_some h
    have hsucc := @daysBeforeMonth_succ d.year (d.month - 1) (by omega)
    rw [Nat.sub_add_cancel hm] at hsucc
    simp only [toOrdinal, hpy, hpm, hpd, hsucc]
    omega
  · obtain ⟨hpy, hpm, hpd⟩ := ofYmd_eq_some h
    have hp := p.year_mem.1
    have hdec := daysBeforeMonth_december (d.year - 1)
    have hjan : daysBeforeMonth d.year d.month = 0 := by
      rw [show d.month = 1 by omega]
      rfl
    simp only [toOrdinal, hpy, hpm, hpd, hjan, hdec]
    by_cases hleap : isLeap (d.year - 1) = true
    · rw [if_pos hleap]
      simp only [isLeap, decide_eq_true_eq] at hleap
      omega
    · rw [if_neg hleap]
      simp only [isLeap, decide_eq_true_eq] at hleap
      omega

/-- `d - timedelta(days=n)`; there is nothing before the first of January of the year 1. -/
def minusDays (d : Date) : ℕ → Option Date
  | 0 => some d
  | n + 1 => d.prevDay.bind fun e => e.minusDays n

/-- The first of January 1970. -/
def epoch : Date := ⟨1970, 1, 1, by decide, by decide, by decide⟩

/-- `date.fromordinal`: by cycles of 400, 100, 4 and single years. -/
def ofOrdinal (n : ℕ) : Option Date :=
  if n = 0 then none
  else
    let n := n - 1
    let n400 := n / 146097
    let n100 := n % 146097 / 36524
    let n4 := n % 146097 % 36524 / 1461
    let n1 := n % 146097 % 36524 % 1461 / 365
    let inYear := n % 146097 % 36524 % 1461 % 365
    let year := n400 * 400 + 1 + n100 * 100 + n4 * 4 + n1
    if n1 = 4 ∨ n100 = 4 then ofYmd (year - 1) 12 31
    else
      let month := ((List.range 12).filter fun m => daysBeforeMonth year (m + 1) ≤ inYear).length
      ofYmd year month (inYear - daysBeforeMonth year month + 1)

/-- The date in UTC of a Unix time. -/
def ofUnixUtc (ts : ℚ) : Option Date :=
  ofOrdinal (epoch.toOrdinal + ⌊ts / 86400⌋).toNat

example : ofUnixUtc 1709164800 = ofYmd 2024 2 29 := by decide +kernel

/-- The Unix time of midnight in UTC. -/
def midnightUtc (d : Date) : ℚ := ((d.toOrdinal : ℤ) - epoch.toOrdinal : ℤ) * 86400

/-- The Monday of the week; the first day there is is one. -/
def weekStart (d : Date) : Date := (d.minusDays d.weekday).getD d

example : (ofYmd 2024 3 2).map weekStart = ofYmd 2024 2 26 := by decide

/-! ## ISO text -/

/-- One decimal digit. -/
def digit (n : ℕ) : Char := Char.ofNat (48 + n % 10)

/-- The characters of `isoformat()`. -/
def isoChars (d : Date) : List Char :=
  [digit (d.year / 1000), digit (d.year / 100), digit (d.year / 10), digit d.year, '-',
    digit (d.month / 10), digit d.month, '-', digit (d.day / 10), digit d.day]

/-- `date.isoformat()`. -/
def isoformat (d : Date) : String := String.ofList d.isoChars

/-- The value of a decimal digit. -/
def digitValue (c : Char) : Option ℕ :=
  if '0' ≤ c ∧ c ≤ '9' then some (c.toNat - 48) else none

/-- `strptime(s, "%Y-%m-%d")` for a text of ten characters; the day may have a leading blank. -/
def parseIso (s : String) : Option Date :=
  match s.toList with
  | [y3, y2, y1, y0, '-', m1, m0, '-', d1, d0] => do
      let year := 1000 * (← digitValue y3) + 100 * (← digitValue y2) + 10 * (← digitValue y1) +
        (← digitValue y0)
      let month := 10 * (← digitValue m1) + (← digitValue m0)
      let day := 10 * (← if d1 = ' ' then some 0 else digitValue d1) + (← digitValue d0)
      ofYmd year month day
  | _ => none

example : (parseIso "2024-02-29").map isoformat = some "2024-02-29" := by decide

theorem digit_lt_digit {a b : ℕ} : digit a < digit b ↔ a % 10 < b % 10 := by
  have h : ∀ i j : Fin 10, digit i < digit j ↔ i < j := by decide
  have := h ⟨a % 10, Nat.mod_lt _ (by decide)⟩ ⟨b % 10, Nat.mod_lt _ (by decide)⟩
  simpa [digit] using this

theorem digit_eq_digit {a b : ℕ} : digit a = digit b ↔ a % 10 = b % 10 := by
  have h : ∀ i j : Fin 10, digit i = digit j ↔ i = j := by decide
  have := h ⟨a % 10, Nat.mod_lt _ (by decide)⟩ ⟨b % 10, Nat.mod_lt _ (by decide)⟩
  simpa [digit] using this

theorem two_digits_lt {a b : ℕ} (ha : a ≤ 99) (hb : b ≤ 99) (h : a < b) :
    a / 10 % 10 < b / 10 % 10 ∨ a / 10 % 10 = b / 10 % 10 ∧ a % 10 < b % 10 := by
  omega

theorem four_digits_lt {a b : ℕ} (ha : a ≤ 9999) (hb : b ≤ 9999) (h : a < b) :
    a / 1000 % 10 < b / 1000 % 10 ∨ a / 1000 % 10 = b / 1000 % 10 ∧
      (a / 100 % 10 < b / 100 % 10 ∨ a / 100 % 10 = b / 100 % 10 ∧
        (a / 10 % 10 < b / 10 % 10 ∨ a / 10 % 10 = b / 10 % 10 ∧ a % 10 < b % 10)) := by
  have hda : a = 1000 * (a / 1000 % 10) + 100 * (a / 100 % 10) + 10 * (a / 10 % 10) + a % 10 := by
    omega
  have hdb : b = 1000 * (b / 1000 % 10) + 100 * (b / 100 % 10) + 10 * (b / 10 % 10) + b % 10 := by
    omega
  have hlt : ∀ n : ℕ, n % 10 < 10 := fun n => Nat.mod_lt _ (by decide)
  have h2a := hlt (a / 100)
  have h1a := hlt (a / 10)
  have h0a := hlt a
  have h2b := hlt (b / 100)
  have h1b := hlt (b / 10)
  have h0b := hlt b
  generalize a / 1000 % 10 = a3, a / 100 % 10 = a2, a / 10 % 10 = a1, a % 10 = a0 at *
  generalize b / 1000 % 10 = b3, b / 100 % 10 = b2, b / 10 % 10 = b1, b % 10 = b0 at *
  omega

theorem isoformat_strictMono : StrictMono isoformat := by
  intro d e h
  rw [isoformat, isoformat, String.lt_iff_toList_lt, String.toList_ofList, String.toList_ofList]
  simp only [isoChars, List.cons_lt_cons_iff, digit_lt_digit, digit_eq_digit, lt_self_iff_false,
    false_or, true_and]
  rcases lt_iff.1 h with hy | ⟨hy, hm | ⟨hm, hd⟩⟩
  · have := four_digits_lt d.year_mem.2 e.year_mem.2 hy
    tauto
  · have := two_digits_lt (d.month_mem.2.trans (by decide)) (e.month_mem.2.trans (by decide)) hm
    simp only [hy, lt_self_iff_false, false_or, true_and]
    tauto
  · have := two_digits_lt (d.day_le.trans (by decide)) (e.day_le.trans (by decide)) hd
    simp only [hy, hm, lt_self_iff_false, false_or, true_and]
    tauto

end Date

end Py
