import BifrostTrade.Lib.Conversions
import BifrostTrade.Lib.FloatRoundTrip

/-!
# Spellings of a date

`strptime` with `%Y-%m-%d` reads more than the ISO text of a date: a month or a day of one digit, a
blank for the first digit of the day, other decimal digits.  Without its dashes only the ISO text is
the date in eight digits (`compact_iff`).
-/

namespace Py

namespace Date

/-- A date in eight digits. -/
def compactChars (d : Date) : List Char :=
  [digit (d.year / 1000), digit (d.year / 100), digit (d.year / 10), digit d.year,
    digit (d.month / 10), digit d.month, digit (d.day / 10), digit d.day]

theorem dash_ne_digit (n : ℕ) : digit n ≠ '-' := by
  have h : ∀ k : Fin 10, Char.ofNat (48 + k) ≠ '-' := by decide
  exact h ⟨n % 10, Nat.mod_lt n (by decide)⟩

theorem decimalValue_digit (n : ℕ) : decimalValue (digit n) = some (n % 10) := by
  have h : ∀ k : Fin 10, decimalValue (Char.ofNat (48 + k)) = some k.val := by decide
  exact h ⟨n % 10, Nat.mod_lt n (by decide)⟩

/-- A date as a number. -/
def number (d : Date) : ℕ := d.year * 10000 + d.month * 100 + d.day

theorem number_injective : Function.Injective number := fun d d' h => by
  have hday := d.day_le
  have hday' := d'.day_le
  have hmonth := d.month_mem
  have hmonth' := d'.month_mem
  unfold number at h
  cases d
  cases d'
  simp only [mk.injEq]
  dsimp only at *
  omega

theorem digit_toNat (n : ℕ) : (digit n).toNat - 48 = n % 10 := by
  have h : ∀ k : Fin 10, (Char.ofNat (48 + k)).toNat - 48 = k.val := by decide
  exact h ⟨n % 10, Nat.mod_lt n (by decide)⟩

theorem isDigit_digit (n : ℕ) : (digit n).isDigit = true := by
  have h : ∀ k : Fin 10, (Char.ofNat (48 + k)).isDigit = true := by decide
  exact h ⟨n % 10, Nat.mod_lt n (by decide)⟩

theorem isDigit_compactChars (d : Date) : ∀ c ∈ d.compactChars, c.isDigit = true := by
  simp [compactChars, isDigit_digit]

/-- The eight digits are the number. -/
theorem charsValue_compactChars (d : Date) : charsValue d.compactChars = d.number := by
  have hyear := d.year_mem
  have hmonth := d.month_mem
  have hday := d.day_le
  simp only [charsValue, compactChars, List.map_cons, List.map_nil, digit_toNat, digitsValue,
    List.foldl_cons, List.foldl_nil, number]
  omega

theorem number_lt (d : Date) : d.number < 10 ^ 8 := by
  have hyear := d.year_mem
  have hmonth := d.month_mem
  have hday := d.day_le
  unfold number
  omega

/-- A number does not print the zeros in front of its year. -/
theorem toDigits_number_iff (d : Date) :
    Nat.toDigits 10 d.number = d.compactChars ↔ 1000 ≤ d.year := by
  have hmonth := d.month_mem
  have hday := d.day_le
  have hle : (Nat.toDigits 10 d.number).length ≤ 8 :=
    (Nat.length_toDigits_le_iff (by decide) (by decide)).2 d.number_lt
  have hseven : (Nat.toDigits 10 d.number).length ≤ 7 ↔ d.number < 10 ^ 7 :=
    Nat.length_toDigits_le_iff (by decide) (by decide)
  constructor
  · intro h
    have hlength : (Nat.toDigits 10 d.number).length = 8 := congrArg List.length h
    unfold number at hseven hlength
    omega
  · intro h
    refine charsValue_inj isDigit_of_mem_toDigits d.isDigit_compactChars ?_ ?_
    · have hlength : d.compactChars.length = 8 := rfl
      unfold number at hseven hle ⊢
      omega
    · rw [charsValue_toDigits, charsValue_compactChars]

theorem compactChars_eq (d : Date) : d.isoChars.filter (· ≠ '-') = d.compactChars := by
  simp [isoChars, compactChars, dash_ne_digit]

end Date

/-! ## What is read -/

theorem strptimeMonth_parts {cs : List Char} {m : ℕ} (h : strptimeMonth cs = some m) :
    cs.length ≤ 2 := by
  unfold strptimeMonth at h
  split at h
  case h_4 => cases h
  all_goals simp

theorem digitValue_dash : Date.digitValue '-' = none := by decide

theorem decimalValue_dash : decimalValue '-' = none := by decide

theorem strptimeDay_parts {cs : List Char} {n : ℕ} (h : strptimeDay cs = some n) :
    cs.length ≤ 2 ∧ '-' ∉ cs := by
  unfold strptimeDay at h
  split at h
  case h_7 => cases h
  all_goals
    refine ⟨by simp, fun hdash => ?_⟩
    simp only [List.mem_cons, List.not_mem_nil, or_false, Char.reduceEq, false_or] at hdash
    subst hdash
    simp [digitValue_dash, decimalValue_dash] at h

/-- A date is read in three parts. -/
theorem strptimeDate_parts {s : String} {d : Date} (h : strptimeDate s = some d) :
    ∃ year month day : List Char, s.toList = year ++ '-' :: (month ++ '-' :: day) ∧
      year.length = 4 ∧ month.length ≤ 2 ∧ day.length ≤ 2 ∧
      '-' ∉ year ∧ '-' ∉ month ∧ '-' ∉ day := by
  unfold strptimeDate at h
  split at h
  · rename_i y3 y2 y1 y0 rest hs
    obtain ⟨year, hyear, h⟩ := Option.bind_eq_some_iff.1 h
    obtain ⟨month, hmonth, h⟩ := Option.bind_eq_some_iff.1 h
    obtain ⟨day, hday, h⟩ := Option.bind_eq_some_iff.1 h
    have hrest := List.takeWhile_append_dropWhile (p := fun c => c ≠ '-') (l := rest)
    cases htail : rest.dropWhile fun c => c ≠ '-' with
    | nil =>
      rw [htail] at hday
      cases hday
    | cons c tail =>
      have hc : c = '-' := by
        have hhead := List.head?_dropWhile_not (fun c => decide (c ≠ '-')) rest
        rw [htail] at hhead
        simpa using hhead
      rw [htail, hc] at hrest
      rw [htail, List.drop_one, List.tail_cons] at hday
      have hmonthDash : '-' ∉ rest.takeWhile fun c => c ≠ '-' := fun hmem => by
        simpa using List.mem_takeWhile_imp hmem
      generalize (rest.takeWhile fun c => c ≠ '-') = m at hmonth hmonthDash hrest
      refine ⟨[y3, y2, y1, y0], m, tail, by rw [hs, ← hrest]; rfl, rfl,
        strptimeMonth_parts hmonth, (strptimeDay_parts hday).1, ?_, hmonthDash,
        (strptimeDay_parts hday).2⟩
      intro hmem
      simp only [List.mem_cons, List.not_mem_nil, or_false] at hmem
      rcases hmem with rfl | rfl | rfl | rfl <;> simp [decimalValue_dash] at hyear
  · cases h

theorem strptimeMonth_digits {m : ℕ} (h1 : 1 ≤ m) (h12 : m ≤ 12) :
    strptimeMonth [Date.digit (m / 10), Date.digit m] = some m := by
  have h : ∀ k : Fin 13, 1 ≤ k.val →
      strptimeMonth [Date.digit (k / 10), Date.digit k] = some k.val := by decide
  exact h ⟨m, by omega⟩ h1

theorem strptimeDay_digits {n : ℕ} (h1 : 1 ≤ n) (h31 : n ≤ 31) :
    strptimeDay [Date.digit (n / 10), Date.digit n] = some n := by
  have h : ∀ k : Fin 32, 1 ≤ k.val →
      strptimeDay [Date.digit (k / 10), Date.digit k] = some k.val := by decide
  exact h ⟨n, by omega⟩ h1

/-- The ISO text of a date is read. -/
theorem strptimeDate_of_isoChars {s : String} {d : Date} (h : s.toList = d.isoChars) :
    strptimeDate s = some d := by
  have hmonth := strptimeMonth_digits d.month_mem.1 d.month_mem.2
  have hday := strptimeDay_digits d.day_mem.1 d.day_le
  have hyear : digitsValue [d.year / 1000 % 10, d.year / 100 % 10, d.year / 10 % 10,
      d.year % 10] = d.year := by
    have := d.year_mem
    simp only [digitsValue, List.foldl_cons, List.foldl_nil]
    omega
  rw [strptimeDate, h]
  simp [Date.isoChars, Date.decimalValue_digit, Date.dash_ne_digit, hmonth, hday, hyear,
    Iso.ofYmd_self]

/-- Without its dashes only the ISO text is the date in eight digits. -/
theorem compact_iff {s : String} {d : Date} (h : strptimeDate s = some d) :
    s.toList.filter (· ≠ '-') = d.compactChars ↔ s.toList = d.isoChars := by
  constructor
  · obtain ⟨year, month, day, hs, hyear, hmonth, hday, hyearDash, hmonthDash, hdayDash⟩ :=
      strptimeDate_parts h
    have hkeep : ∀ {cs : List Char}, '-' ∉ cs → cs.filter (· ≠ '-') = cs := fun hcs =>
      List.filter_eq_self.2 fun c hc => by simpa using ne_of_mem_of_not_mem hc hcs
    intro hcompact
    rw [hs, List.filter_append, List.filter_cons_of_neg (by simp), List.filter_append,
      List.filter_cons_of_neg (by simp), hkeep hyearDash, hkeep hmonthDash, hkeep hdayDash]
      at hcompact
    have hlength := congrArg List.length hcompact
    simp only [List.length_append, Date.compactChars, List.length_cons, List.length_nil] at hlength
    have hsplit : year ++ (month ++ day) =
        [Date.digit (d.year / 1000), Date.digit (d.year / 100), Date.digit (d.year / 10),
          Date.digit d.year] ++
        ([Date.digit (d.month / 10), Date.digit d.month] ++
          [Date.digit (d.day / 10), Date.digit d.day]) := hcompact
    obtain ⟨hy, hrest⟩ := List.append_inj hsplit (by simpa using hyear)
    have hmonthLength : month.length = 2 := by omega
    obtain ⟨hm, hd⟩ := List.append_inj hrest (by simpa using hmonthLength)
    rw [hs, hy, hm, hd]
    rfl
  · intro hiso
    rw [hiso, Date.compactChars_eq]

/-! ## Code points -/

theorem ofNat_eq_iff {n : ℕ} {c : Char} (hc : c ≠ '\x00') : Char.ofNat n = c ↔ n = c.toNat := by
  constructor
  · rintro rfl
    by_cases hvalid : n.isValidChar
    · rw [Char.ofNat, dif_pos hvalid]
      rfl
    · rw [Char.ofNat, dif_neg hvalid] at hc
      exact absurd rfl hc
  · rintro rfl
    exact Char.ofNat_toNat c

theorem map_ofNat_codes (cs : List Char) : (Iso.codes cs).map Char.ofNat = cs := by
  simp [Iso.codes, Function.comp_def]

theorem map_ofNat_eq_iff {points : List ℕ} {cs : List Char} (h : '\x00' ∉ cs) :
    points.map Char.ofNat = cs ↔ points = Iso.codes cs := by
  induction points generalizing cs with
  | nil => cases cs <;> simp [Iso.codes]
  | cons n points ih =>
    cases cs with
    | nil => simp [Iso.codes]
    | cons c cs =>
      rw [List.mem_cons, not_or] at h
      rw [List.map_cons, List.cons.injEq, Iso.codes_cons, List.cons.injEq, ih h.2,
        ofNat_eq_iff (Ne.symm h.1)]

theorem nul_not_mem_isoChars (d : Date) : '\x00' ∉ d.isoChars := by
  have hdigit : ∀ n, '\x00' ≠ Date.digit n := fun n => by
    have h : ∀ k : Fin 10, '\x00' ≠ Char.ofNat (48 + k) := by decide
    exact h ⟨n % 10, Nat.mod_lt n (by decide)⟩
  simp [Date.isoChars, hdigit]

/-- The same for code points. -/
theorem compactPoints_iff {points : List ℕ} {d : Date}
    (h : strptimeDate (pointsText points) = some d) :
    points.filter (· ≠ 45) = Iso.codes d.compactChars ↔ points = Iso.codes d.isoChars := by
  have hdash : ∀ n, decide (Char.ofNat n ≠ '-') = decide (n ≠ 45) := fun n => by
    simp [ofNat_eq_iff (show '-' ≠ '\x00' by decide)]
  constructor
  · intro hpoints
    rw [← map_ofNat_eq_iff (nul_not_mem_isoChars d)]
    have hmap := congrArg (List.map Char.ofNat) hpoints
    rw [show (fun n => decide (n ≠ 45)) = (fun c => decide (c ≠ '-')) ∘ Char.ofNat from
      funext fun n => (hdash n).symm, ← List.filter_map] at hmap
    have hchars := (compact_iff h).1
    rw [pointsText, String.toList_ofList] at hchars
    exact hchars (hmap.trans (map_ofNat_codes d.compactChars))
  · rintro rfl
    rw [← Date.compactChars_eq, Iso.codes, List.filter_map]
    congr 1
    refine List.filter_congr fun c _ => ?_
    rw [Function.comp_apply, ← hdash, Char.ofNat_toNat]

end Py
