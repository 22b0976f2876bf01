import BifrostTrade.Lib.FloatRoundTrip
import BifrostTrade.Lib.JsonValue

/-!
# JSON values written and read

`json.dumps(value, separators=(",", ":"))` of any JSON value.  Reading what was written gives the
value back where it can be written and its keys differ (`loads_dumps`).
-/

namespace Py.Json

/-! ## Writing -/

/-- A code point in a text, with `ensure_ascii`. -/
def escapePoint (n : ℕ) : List Char :=
  match shortEscapes.lookup (Char.ofNat n) with
  | some l => ['\\', l]
  | none =>
      if 32 ≤ n ∧ n ≤ 126 then [Char.ofNat n]
      else if n < 65536 then escapeUnit n
      else escapeUnit (55296 + (n - 65536) / 1024) ++ escapeUnit (56320 + (n - 65536) % 1024)

/-- A string as `dumps` writes it. -/
def dumpsPoints (points : List ℕ) : List Char := '"' :: points.flatMap escapePoint ++ ['"']

/-- A float as `dumps` writes it. -/
def dumpsFloat : Double → List Char
  | .fin x => (reprFloat (.fin x)).toList
  | .posInf => "Infinity".toList
  | .negInf => "-Infinity".toList
  | .nan => "NaN".toList

mutual

/-- `json.dumps(value, separators=(",", ":"))` of a value whose integers can be written. -/
def dumps : Value → List Char
  | .null => "null".toList
  | .bool b => if b then "true".toList else "false".toList
  | .int n => (toString n).toList
  | .float x => dumpsFloat x
  | .text points => dumpsPoints points
  | .array items => '[' :: dumpsItems items ++ [']']
  | .object members => '\x7b' :: dumpsMembers members ++ ['\x7d']

/-- The items of an array, separated. -/
def dumpsItems : List Value → List Char
  | [] => []
  | [v] => dumps v
  | v :: w :: items => dumps v ++ ',' :: dumpsItems (w :: items)

/-- The members of an object, separated. -/
def dumpsMembers : List (List ℕ × Value) → List Char
  | [] => []
  | [m] => dumpsKeyed m
  | m :: k :: members => dumpsKeyed m ++ ',' :: dumpsMembers (k :: members)

/-- One member. -/
def dumpsKeyed : List ℕ × Value → List Char
  | (key, v) => dumpsPoints key ++ ':' :: dumps v

end

theorem dumpsItems_eq (items : List Value) :
    dumpsItems items = [','].intercalate (items.map dumps) := by
  induction items with
  | nil => rfl
  | cons v items ih =>
    cases items with
    | nil => rw [dumpsItems, List.map_singleton, List.intercalate_singleton]
    | cons w items =>
      rw [dumpsItems, ih, List.map_cons, List.map_cons, List.map_cons, List.intercalate_cons_cons,
        List.append_assoc]
      rfl

theorem dumpsMembers_eq (members : List (List ℕ × Value)) :
    dumpsMembers members = [','].intercalate (members.map dumpsKeyed) := by
  induction members with
  | nil => rfl
  | cons m members ih =>
    cases members with
    | nil => rw [dumpsMembers, List.map_singleton, List.intercalate_singleton]
    | cons k members =>
      rw [dumpsMembers, ih, List.map_cons, List.map_cons, List.map_cons, List.intercalate_cons_cons,
        List.append_assoc]
      rfl

/-- A high and a low surrogate. -/
def IsHigh (n : ℕ) : Prop := 55296 ≤ n ∧ n < 56320

/-- A low surrogate. -/
def IsLow (n : ℕ) : Prop := 56320 ≤ n ∧ n < 57344

instance (n : ℕ) : Decidable (IsHigh n) := inferInstanceAs (Decidable (_ ∧ _))

instance (n : ℕ) : Decidable (IsLow n) := inferInstanceAs (Decidable (_ ∧ _))

/-- Code points that no text joins: no two of them are a pair of surrogates. -/
def Separate (points : List ℕ) : Prop :=
  (∀ n ∈ points, n < 1114112) ∧ points.IsChain fun a b => ¬ (IsHigh a ∧ IsLow b)

instance (points : List ℕ) : Decidable (Separate points) := inferInstanceAs (Decidable (_ ∧ _))

/-- A value that is written and read: its integers are not too long, its floats are doubles, its
texts hold no pair of surrogates, and the keys of an object differ. -/
inductive Writable : Value → Prop
  | null : Writable .null
  | bool (b : Bool) : Writable (.bool b)
  | int {n : ℤ} (h : (Nat.toDigits 10 n.natAbs).length ≤ maxIntDigits) : Writable (.int n)
  | float {x : Double} (h : ∀ q, x = .fin q → nearest q = .fin q) : Writable (.float x)
  | text {points : List ℕ} (h : Separate points) : Writable (.text points)
  | array {items : List Value} (h : ∀ v ∈ items, Writable v) : Writable (.array items)
  | object {members : List (List ℕ × Value)} (hkeys : (members.map Prod.fst).Nodup)
      (hpoints : ∀ m ∈ members, Separate m.1) (h : ∀ m ∈ members, Writable m.2) :
      Writable (.object members)

/-! ## Texts -/

/-- The code units of a code point. -/
def unitsOfPoint (n : ℕ) : List ℕ :=
  if n < 65536 then [n] else [55296 + (n - 65536) / 1024, 56320 + (n - 65536) % 1024]

theorem scanText_escapePoint {n : ℕ} (hn : n < 1114112) (rest : List Char) :
    scanText (escapePoint n ++ rest) =
      (scanText rest).map fun r => (unitsOfPoint n ++ r.1, r.2) := by
  by_cases hsurrogate : 55296 ≤ n ∧ n < 57344
  · -- a surrogate is no character, and is written as its unit
    have hnul : Char.ofNat n = Char.ofNat 0 := by
      rw [Char.ofNat, dif_neg]
      · rfl
      · unfold Nat.isValidChar
        omega
    rw [escapePoint, hnul, show shortEscapes.lookup (Char.ofNat 0) = none from by decide]
    dsimp only
    rw [if_neg (by omega), if_pos (by omega), unitsOfPoint, if_pos (by omega),
      scanText_escapeUnit (by omega)]
    rfl
  · have hvalid : n.isValidChar := by
      unfold Nat.isValidChar
      omega
    have hnat : (Char.ofNat n).toNat = n := by
      rw [Char.ofNat, dif_pos hvalid]
      rfl
    have hchar := scanText_escapeChar (Char.ofNat n) rest
    rw [escapeChar, unitsOf, hnat] at hchar
    exact hchar

theorem scanText_points {points : List ℕ} (h : ∀ n ∈ points, n < 1114112) (rest : List Char) :
    scanText (points.flatMap escapePoint ++ '"' :: rest) =
      some (points.flatMap unitsOfPoint, rest) := by
  induction points with
  | nil => rw [List.flatMap_nil, List.nil_append, scanText, List.flatMap_nil]
  | cons n points ih =>
    rw [List.forall_mem_cons] at h
    rw [List.flatMap_cons, List.append_assoc, scanText_escapePoint h.1, ih h.2, List.flatMap_cons]
    rfl

theorem pointsOf_cons_of_not {n u : ℕ} {units : List ℕ} (h : ¬ (IsHigh n ∧ IsLow u)) :
    pointsOf (n :: u :: units) = n :: pointsOf (u :: units) := by
  rw [pointsOf, if_neg]
  exact h

theorem pointsOf_units {points : List ℕ} (h : Separate points) :
    pointsOf (points.flatMap unitsOfPoint) = points := by
  obtain ⟨hrange, hchain⟩ := h
  induction points with
  | nil => rfl
  | cons n points ih =>
    rw [List.forall_mem_cons] at hrange
    have ih := ih hrange.2 hchain.of_cons
    rw [List.flatMap_cons]
    by_cases hbmp : n < 65536
    · rw [unitsOfPoint, if_pos hbmp, List.singleton_append]
      cases points with
      | nil => rfl
      | cons m points =>
        -- the next unit is the next point, or the high half of one beyond the basic plane
        have hnext := (List.isChain_cons_cons.1 hchain).1
        rw [List.flatMap_cons] at ih ⊢
        by_cases hm : m < 65536
        · rw [unitsOfPoint, if_pos hm, List.singleton_append] at ih ⊢
          rw [pointsOf_cons_of_not hnext, ih]
        · rw [unitsOfPoint, if_neg hm, List.cons_append, List.singleton_append] at ih ⊢
          have hhigh : ¬ IsLow (55296 + (m - 65536) / 1024) := by
            have hmrange := hrange.2 m List.mem_cons_self
            unfold IsLow
            omega
          rw [pointsOf_cons_of_not fun hboth => hhigh hboth.2, ih]
    · have hpair : 65536 + (55296 + (n - 65536) / 1024 - 55296) * 1024 +
          (56320 + (n - 65536) % 1024 - 56320) = n := by omega
      rw [unitsOfPoint, if_neg hbmp, List.cons_append, List.singleton_append, pointsOf,
        if_pos (by omega), hpair, ih]

theorem readPoints_dumpsPoints {points : List ℕ} (h : Separate points) (rest : List Char) :
    readPoints (dumpsPoints points ++ rest) = some (points, rest) := by
  have htext : dumpsPoints points ++ rest =
      '"' :: (points.flatMap escapePoint ++ '"' :: rest) := by simp [dumpsPoints]
  rw [htext, readPoints, scanText_points h.1, Option.map_some, pointsOf_units h]

/-! ## Floats -/

/-- A run of digits as a number starts: with no zero in front of another digit. -/
def IsWhole (cs : List Char) : Prop :=
  cs ≠ [] ∧ (∀ c ∈ cs, c.isDigit = true) ∧ (cs = ['0'] ∨ cs.head? ≠ some '0')

/-- A fraction or nothing. -/
def IsFraction (cs : List Char) : Prop :=
  cs = [] ∨ ∃ ds, cs = '.' :: ds ∧ ds ≠ [] ∧ ∀ c ∈ ds, c.isDigit = true

/-- An exponent or nothing. -/
def IsExponent (cs : List Char) : Prop :=
  cs = [] ∨ ∃ s ds, cs = 'e' :: s :: ds ∧ (s = '+' ∨ s = '-') ∧ ds ≠ [] ∧
    ∀ c ∈ ds, c.isDigit = true

/-- The parts of a float without its sign. -/
structure FloatParts where
  whole : List Char
  frac : List Char
  exp : List Char
  isWhole : IsWhole whole
  isFraction : IsFraction frac
  isExponent : IsExponent exp
  isFloat : frac ≠ [] ∨ exp ≠ []

/-- The text of the number. -/
def FloatParts.chars (p : FloatParts) : List Char := p.whole ++ (p.frac ++ p.exp)

/-- What ends a run of digits in a JSON text. -/
def EndsRun (cs : List Char) : Prop := ∀ c ∈ cs.head?, c.isDigit = false

theorem takeWhile_digits {ds rest : List Char} (h : ∀ c ∈ ds, c.isDigit = true)
    (hrest : EndsRun rest) : (ds ++ rest).takeWhile Char.isDigit = ds := by
  rw [List.takeWhile_append_of_pos h]
  cases rest with
  | nil => simp
  | cons c rest =>
    rw [List.takeWhile_cons_of_neg (by simp [hrest c rfl]), List.append_nil]

theorem scanWhole_append {whole rest : List Char} (h : IsWhole whole) (hrest : EndsRun rest) :
    scanWhole (whole ++ rest) = whole := by
  obtain ⟨hne, hdigits, hzero⟩ := h
  rcases hzero with rfl | hhead
  · rfl
  · obtain ⟨c, cs, rfl⟩ := List.exists_cons_of_ne_nil hne
    have htake := takeWhile_digits hdigits hrest
    rw [List.cons_append] at htake ⊢
    rw [scanWhole, htake]
    rintro _ heq
    exact hhead (congrArg some (List.cons.inj heq).1)

theorem scanFraction_append {frac rest : List Char} (h : IsFraction frac) (hrest : EndsRun rest)
    (hpoint : rest.head? ≠ some '.') : scanFraction (frac ++ rest) = frac := by
  rcases h with rfl | ⟨ds, rfl, hne, hdigits⟩
  · cases rest with
    | nil => rfl
    | cons c rest => exact scanFraction_of_ne (fun heq => hpoint (congrArg some heq)) rest
  · rw [List.cons_append, scanFraction, takeWhile_digits hdigits hrest, if_pos hne]

theorem scanExponent_append {exp : List Char} (h : IsExponent exp) {e : Char} (he : EndsNumber e)
    (rest : List Char) : scanExponent (exp ++ e :: rest) = exp := by
  rcases h with rfl | ⟨s, ds, rfl, hs, hne, hdigits⟩
  · exact scanExponent_of_ne he.2.2 rest
  · obtain ⟨d, ds, rfl⟩ := List.exists_cons_of_ne_nil hne
    have hd : (decide (d = '+' ∨ d = '-')) = false := by
      have hdigit := hdigits d List.mem_cons_self
      rw [decide_eq_false_iff_not]
      rintro (rfl | rfl) <;> cases hdigit
    have hsign : ((s :: (d :: ds) ++ e :: rest).takeWhile fun c => c = '+' ∨ c = '-') = [s] := by
      rw [List.cons_append, List.cons_append, List.takeWhile_cons_of_pos (by simpa using hs),
        List.takeWhile_cons_of_neg (by simp [hd])]
    have hrun : EndsRun (e :: rest) := fun c hc => by
      obtain rfl := Option.some.inj hc
      exact he.1
    rw [List.cons_append, List.cons_append, scanExponent, ← List.cons_append, hsign,
      List.length_singleton, List.cons_append, List.drop_succ_cons, List.drop_zero,
      takeWhile_digits hdigits hrun, if_pos ⟨.inl rfl, le_rfl, hne⟩]
    rfl

theorem head_fraction {frac rest : List Char} (h : IsFraction frac) {c : Char}
    (hc : (frac ++ rest).head? = some c) : c = '.' ∨ rest.head? = some c := by
  rcases h with rfl | ⟨ds, rfl, -⟩
  · exact .inr hc
  · exact .inl (Option.some.inj hc).symm

theorem head_exponent {exp : List Char} (h : IsExponent exp) {e c : Char} {rest : List Char}
    (hc : (exp ++ e :: rest).head? = some c) : c = 'e' ∨ c = e := by
  rcases h with rfl | ⟨s, ds, rfl, -⟩
  · exact .inr (Option.some.inj hc).symm
  · exact .inl (Option.some.inj hc).symm

/-- A float in a text is read up to the character that ends it. -/
theorem readUnsigned_float (neg : Bool) (p : FloatParts) {e : Char} (he : EndsNumber e)
    (rest : List Char) : readUnsigned neg (p.chars ++ e :: rest) =
      (readFloat (String.ofList ((if neg then ['-'] else []) ++ p.chars))).map
        fun x => (.float x, e :: rest) := by
  have hexpEnds : EndsRun (p.exp ++ e :: rest) := fun c hc => by
    rcases head_exponent p.isExponent hc with rfl | rfl
    · rfl
    · exact he.1
  have hfracEnds : EndsRun (p.frac ++ (p.exp ++ e :: rest)) := fun c hc => by
    rcases head_fraction p.isFraction hc with rfl | hc
    · rfl
    · exact hexpEnds c hc
  have hpoint : (p.exp ++ e :: rest).head? ≠ some '.' := fun hc => by
    rcases head_exponent p.isExponent hc with h | h
    · cases h
    · exact he.2.1 h.symm
  have hfloat : ¬ (p.frac = [] ∧ p.exp = []) := fun hboth =>
    p.isFloat.elim (fun h => h hboth.1) fun h => h hboth.2
  have hsplit : p.chars ++ e :: rest = p.whole ++ (p.frac ++ (p.exp ++ e :: rest)) := by
    simp [FloatParts.chars]
  rw [hsplit, readUnsigned, scanWhole_append p.isWhole hfracEnds, List.drop_left]
  dsimp only
  rw [scanFraction_append p.isFraction hexpEnds hpoint, List.drop_left,
    scanExponent_append p.isExponent he, if_neg p.isWhole.1, if_neg hfloat, ← List.drop_drop,
    List.drop_left, List.drop_left, FloatParts.chars]
  simp only [List.append_assoc]

theorem isDigit_replicate (n : ℕ) : ∀ c ∈ List.replicate n '0', c.isDigit = true :=
  fun _ hc => List.eq_of_mem_replicate hc ▸ rfl

/-- A decimal that is not zero starts with no zero. -/
theorem head_digitChars {d : Decimal} (h : d.digits ≠ 0) : d.digitChars.head? ≠ some '0' := by
  have hne := Decimal.digitChars_ne_nil h
  have hzero := head_toDigits_ne_zero (Nat.pos_of_ne_zero h)
  have hpre : d.digitChars <+: Nat.toDigits 10 d.digits := List.rdropWhile_prefix _ _
  obtain ⟨c, cs, hcs⟩ := List.exists_cons_of_ne_nil hne
  obtain ⟨rest, hrest⟩ := hpre
  rw [← hrest, hcs] at hzero
  rw [hcs]
  exact hzero

/-- The text of a decimal is a number of JSON, with a fraction or an exponent. -/
theorem exists_floatParts {d : Decimal} (h : d.digits ≠ 0) :
    ∃ p : FloatParts, d.text = p.chars := by
  have hne := Decimal.digitChars_ne_nil h
  have hdigits := d.isDigit_digitChars
  have hhead := head_digitChars h
  unfold Decimal.text
  dsimp only
  generalize d.digitChars = ds at hne hdigits hhead
  generalize d.place = place
  have hsign : (if place < 0 then '-' else '+') = '+' ∨
      (if place < 0 then '-' else '+') = '-' := (ite_eq_or_eq _ _ _).symm
  generalize (if place < 0 then '-' else '+') = s at hsign
  obtain ⟨c, cs, rfl⟩ := List.exists_cons_of_ne_nil hne
  have hc : c ≠ '0' := fun heq => hhead (congrArg some heq)
  have hwhole : IsWhole [c] :=
    ⟨by simp, fun x hx => hdigits x (List.mem_singleton.1 hx ▸ List.mem_cons_self),
      .inr (by simpa using hc)⟩
  have hexp : IsExponent ('e' :: s :: natText 2 place.natAbs) :=
    .inr ⟨_, _, rfl, hsign, by simp [natText], fun x hx => isDigit_of_mem_natText hx⟩
  split_ifs with hlow hlong hsmall hshort
  · exact ⟨
      { whole := (c :: cs).take (place.toNat + 1) ++
          List.replicate (place.toNat + 1 - ((c :: cs).take (place.toNat + 1)).length) '0'
        frac := ['.', '0']
        exp := []
        isWhole := ⟨by simp, List.forall_mem_append.2
          ⟨fun x hx => hdigits x (List.mem_of_mem_take hx), isDigit_replicate _⟩,
          .inr (by simpa using hc)⟩
        isFraction := .inr ⟨['0'], rfl, by simp, fun x hx => List.mem_singleton.1 hx ▸ rfl⟩
        isExponent := .inl rfl
        isFloat := .inl (by simp) }, by simp [FloatParts.chars]⟩
  · exact ⟨
      { whole := (c :: cs).take (place.toNat + 1) ++
          List.replicate (place.toNat + 1 - ((c :: cs).take (place.toNat + 1)).length) '0'
        frac := '.' :: (c :: cs).drop (place.toNat + 1)
        exp := []
        isWhole := ⟨by simp, List.forall_mem_append.2
          ⟨fun x hx => hdigits x (List.mem_of_mem_take hx), isDigit_replicate _⟩,
          .inr (by simpa using hc)⟩
        isFraction := .inr ⟨_, rfl, hlong, fun x hx => hdigits x (List.mem_of_mem_drop hx)⟩
        isExponent := .inl rfl
        isFloat := .inl (by simp) }, by simp [FloatParts.chars]⟩
  · exact ⟨
      { whole := ['0']
        frac := '.' :: (List.replicate (-place - 1).toNat '0' ++ c :: cs)
        exp := []
        isWhole := ⟨by simp, fun x hx => List.mem_singleton.1 hx ▸ rfl, .inl rfl⟩
        isFraction := .inr ⟨_, rfl, by simp,
          List.forall_mem_append.2 ⟨isDigit_replicate _, hdigits⟩⟩
        isExponent := .inl rfl
        isFloat := .inl (by simp) }, by simp [FloatParts.chars]⟩
  · exact ⟨⟨[c], [], _, hwhole, .inl rfl, hexp, .inr (by simp)⟩, by simp [FloatParts.chars]⟩
  · have hfrac : IsFraction ('.' :: (c :: cs).drop 1) :=
      .inr ⟨_, rfl, hshort, fun x hx => hdigits x (List.mem_of_mem_drop hx)⟩
    exact ⟨⟨[c], _, _, hwhole, hfrac, hexp, .inr (by simp)⟩, by simp [FloatParts.chars]⟩

theorem reprFloat_eq_chars {x : ℚ} (hx : nearest x = .fin x) : ∃ p : FloatParts,
    (reprFloat (.fin x)).toList = (if x < 0 then ['-'] else []) ++ p.chars := by
  by_cases hzero : x = 0
  · subst hzero
    exact ⟨⟨['0'], ['.', '0'], [], ⟨by simp, fun c hc => List.mem_singleton.1 hc ▸ rfl, .inl rfl⟩,
      .inr ⟨['0'], rfl, by simp, fun c hc => List.mem_singleton.1 hc ▸ rfl⟩, .inl rfl,
      .inl (by simp)⟩, rfl⟩
  · have habs : nearest |x| = .fin |x| := by
      rcases abs_choice x with h | h
      · rwa [h]
      · rw [h]
        exact nearest_neg hx
    obtain ⟨p, hp⟩ := exists_floatParts (shortDecimal_digits_ne (abs_pos.2 hzero) habs)
    exact ⟨p, by rw [reprFloat, if_neg hzero, String.toList_ofList, hp]⟩

theorem startsNumber_chars (p : FloatParts) (e : Char) (rest : List Char) :
    startsNumber (p.chars ++ e :: rest) = true ∧
      startsNumber ('-' :: (p.chars ++ e :: rest)) = true := by
  obtain ⟨hne, hdigits, -⟩ := p.isWhole
  obtain ⟨c, cs, hcs⟩ := List.exists_cons_of_ne_nil hne
  have hdigit := hdigits c (hcs ▸ List.mem_cons_self)
  have hminus : c ≠ '-' := by
    rintro rfl
    cases hdigit
  rw [FloatParts.chars, hcs]
  refine ⟨?_, hdigit⟩
  rw [List.cons_append, List.cons_append]
  obtain ⟨d, ds, hds⟩ : ∃ d ds, cs ++ (p.frac ++ p.exp) ++ e :: rest = d :: ds :=
    List.exists_cons_of_ne_nil (by simp)
  rw [hds, startsNumber]
  · exact hdigit
  · exact hminus

theorem not_minus_chars (p : FloatParts) (rest cs : List Char) : p.chars ++ rest ≠ '-' :: cs := by
  obtain ⟨hne, hdigits, -⟩ := p.isWhole
  obtain ⟨c, ds, hcs⟩ := List.exists_cons_of_ne_nil hne
  have hdigit := hdigits c (hcs ▸ List.mem_cons_self)
  rw [FloatParts.chars, hcs, List.cons_append, List.cons_append]
  intro heq
  rw [(List.cons.inj heq).1] at hdigit
  cases hdigit

/-- The text of a finite float, read up to the character that ends it. -/
theorem readPlain_reprFloat {q : ℚ} (hq : nearest q = .fin q) {e : Char} (he : EndsNumber e)
    (rest : List Char) :
    readPlain ((reprFloat (.fin q)).toList ++ e :: rest) = some (.float (.fin q), e :: rest) := by
  have hread := readFloat_reprFloat hq
  obtain ⟨p, hp⟩ := reprFloat_eq_chars hq
  obtain ⟨hplain, hsigned⟩ := startsNumber_chars p e rest
  have htext : String.ofList (reprFloat (.fin q)).toList = reprFloat (.fin q) :=
    String.ofList_toList
  generalize reprFloat (.fin q) = text at hread hp htext
  rw [hp] at htext ⊢
  by_cases hneg : q < 0
  · rw [if_pos hneg] at htext ⊢
    rw [List.singleton_append, List.cons_append, readPlain, find_words hsigned]
    dsimp only
    rw [readUnsigned_float true p he, if_pos rfl, htext, hread, Option.map_some]
  · rw [if_neg hneg] at htext ⊢
    rw [List.nil_append, readPlain, find_words hplain]
    · dsimp only
      rw [readUnsigned_float false p he, if_neg Bool.false_ne_true, htext, hread, Option.map_some]
    · exact fun cs heq => not_minus_chars p _ cs heq

/-- A float that was written is read up to the character that ends it. -/
theorem readPlain_dumpsFloat {x : Double} (hx : ∀ q, x = .fin q → nearest q = .fin q) {e : Char}
    (he : EndsNumber e) (rest : List Char) :
    readPlain (dumpsFloat x ++ e :: rest) = some (.float x, e :: rest) := by
  cases x with
  | fin q => exact readPlain_reprFloat (hx q rfl) he rest
  | posInf => rfl
  | negInf => rfl
  | nan => rfl

/-! ## Values -/

/-- How a value starts: with no space and no closing bracket. -/
def StartsValue (cs : List Char) : Prop :=
  ∃ c rest, cs = c :: rest ∧ isJsonSpace c = false ∧ c ≠ ']' ∧ c ≠ '\x7d'

theorem StartsValue.skipSpace {cs : List Char} (h : StartsValue cs) (rest : List Char) :
    skipSpace (cs ++ rest) = cs ++ rest := by
  obtain ⟨c, ds, rfl, hc, -⟩ := h
  exact skipSpace_cons hc _

theorem startsValue_of_isNumeric {c : Char} (h : IsNumeric c) (rest : List Char) :
    StartsValue (c :: rest) := by
  have hne : ∀ d, d.isDigit = false → d ∉ ['-', '+', '.', 'e'] → c ≠ d := fun d => ne_of_isNumeric h
  refine ⟨c, rest, rfl, ?_, hne ']' (by decide) (by decide), hne '\x7d' (by decide) (by decide)⟩
  simp [isJsonSpace, hne ' ' (by decide) (by decide), hne '\t' (by decide) (by decide),
    hne '\n' (by decide) (by decide), hne '\r' (by decide) (by decide)]

theorem startsValue_reprFloat (q : ℚ) : StartsValue (reprFloat (.fin q)).toList := by
  have hne := reprFloat_ne_empty (.fin q)
  have hnumeric := isNumeric_reprFloat q
  generalize (reprFloat (.fin q)).toList = cs at hne hnumeric ⊢
  obtain ⟨c, cs, rfl⟩ := List.exists_cons_of_ne_nil hne
  exact startsValue_of_isNumeric (hnumeric c List.mem_cons_self) cs

theorem startsValue_dumps (v : Value) : StartsValue (dumps v) := by
  have hother : ∀ c ∈ ['"', '[', '\x7b', 'n', 't', 'f', 'I', 'N'], ∀ rest,
      StartsValue (c :: rest) := by
    have hall : ∀ c ∈ ['"', '[', '\x7b', 'n', 't', 'f', 'I', 'N'],
        isJsonSpace c = false ∧ c ≠ ']' ∧ c ≠ '\x7d' := forall_of_all (by decide)
    exact fun c hc rest => ⟨c, rest, rfl, hall c hc⟩
  cases v with
  | null => exact hother 'n' (by simp) _
  | bool b =>
    cases b with
    | true => exact hother 't' (by simp) _
    | false => exact hother 'f' (by simp) _
  | int n =>
    obtain ⟨c, cs, hcs, hc⟩ := head_toString n
    rw [dumps, hcs]
    exact startsValue_of_isNumeric hc cs
  | float x =>
    rw [dumps]
    cases x with
    | fin q => exact startsValue_reprFloat q
    | posInf => exact hother 'I' (by simp) _
    | negInf => exact startsValue_of_isNumeric (.inr (by decide)) _
    | nan => exact hother 'N' (by simp) _
  | text points => exact hother '"' (by simp) _
  | array items => exact hother '[' (by simp) _
  | object members => exact hother '\x7b' (by simp) _

theorem startsValue_dumpsKeyed (m : List ℕ × Value) : StartsValue (dumpsKeyed m) := by
  obtain ⟨key, v⟩ := m
  rw [dumpsKeyed, dumpsPoints]
  exact ⟨'"', _, rfl, by decide⟩

/-- A reader that reads what a writer writes, in texts of fewer than `n` characters. -/
def ReadsBack {α : Type} (one : List Char → Option (α × List Char)) (write : α → List Char) (n : ℕ)
    (a : α) : Prop :=
  ∀ e rest, EndsNumber e → (write a ++ e :: rest).length < n →
    one (write a ++ e :: rest) = some (a, e :: rest)

/-- Items that were written between commas are read up to the closing character. -/
theorem readUntil_intercalate {α : Type} {close : Char}
    (hclose : EndsNumber close ∧ isJsonSpace close = false ∧ close ≠ ',')
    {one : List Char → Option (α × List Char)} {write : α → List Char} {n : ℕ}
    (hstart : ∀ a, StartsValue (write a)) (rest : List Char) (a : α) (as : List α)
    (hone : ∀ b ∈ a :: as, ReadsBack one write n b) {fuel : ℕ} (hfuel : as.length < fuel)
    (hn : ([','].intercalate ((a :: as).map write) ++ close :: rest).length < n) :
    readUntil close one fuel ([','].intercalate ((a :: as).map write) ++ close :: rest) =
      some (a :: as, rest) := by
  obtain ⟨hends, hspace, hcomma⟩ := hclose
  have hcommaEnds : EndsNumber ',' ∧ isJsonSpace ',' = false := by
    unfold EndsNumber
    decide
  induction as generalizing a fuel with
  | nil =>
    obtain ⟨fuel, rfl⟩ := Nat.exists_eq_succ_of_ne_zero (Nat.ne_of_gt (Nat.zero_lt_of_lt hfuel))
    rw [List.map_singleton, List.intercalate_singleton] at hn ⊢
    rw [readUntil, (hstart a).skipSpace, hone a List.mem_cons_self close rest hends hn,
      Option.bind_some]
    dsimp only
    rw [skipSpace_cons hspace]
    dsimp only
    rw [if_pos rfl]
  | cons b as ih =>
    obtain ⟨fuel, rfl⟩ := Nat.exists_eq_succ_of_ne_zero (Nat.ne_of_gt (Nat.zero_lt_of_lt hfuel))
    rw [List.length_cons] at hfuel
    have hsplit : [','].intercalate ((a :: b :: as).map write) ++ close :: rest =
        write a ++ ',' :: ([','].intercalate ((b :: as).map write) ++ close :: rest) := by
      simp [List.intercalate_cons_cons]
    rw [hsplit] at hn ⊢
    have hrest : ([','].intercalate ((b :: as).map write) ++ close :: rest).length < n := by
      rw [List.length_append, List.length_cons] at hn
      omega
    rw [readUntil, (hstart a).skipSpace, hone a List.mem_cons_self ',' _ hcommaEnds.1 hn,
      Option.bind_some]
    dsimp only
    rw [skipSpace_cons hcommaEnds.2]
    dsimp only
    rw [if_neg (Ne.symm hcomma), if_pos rfl,
      ih b (fun c hc => hone c (List.mem_cons_of_mem _ hc)) (by omega) hrest, Option.map_some]

theorem readMember_dumpsKeyed {m : List ℕ × Value} (hkey : Separate m.1) {fuel : ℕ} {n : ℕ}
    (hvalue : ReadsBack (readValue fuel) dumps n m.2) :
    ReadsBack (readMember (readValue fuel)) dumpsKeyed n m := by
  intro e rest he hn
  obtain ⟨key, v⟩ := m
  have hcolon : isJsonSpace ':' = false := by decide
  have hlength : (dumps v ++ e :: rest).length < n := by
    rw [dumpsKeyed] at hn
    simp only [List.length_append, List.length_cons] at hn ⊢
    omega
  rw [dumpsKeyed, List.append_assoc, List.cons_append, readMember, readPoints_dumpsPoints hkey,
    Option.bind_some, skipSpace_cons hcolon]
  show (readValue fuel (skipSpace (dumps v ++ e :: rest))).map _ = _
  rw [(startsValue_dumps v).skipSpace, hvalue e rest he hlength, Option.map_some]

theorem startsValue_intercalate {α : Type} {write : α → List Char}
    (hstart : ∀ a, StartsValue (write a)) (a : α) (as : List α) (rest : List Char) :
    StartsValue ([','].intercalate ((a :: as).map write) ++ rest) := by
  obtain ⟨c, cs, hcs, hc⟩ := hstart a
  obtain ⟨tail, htail⟩ : ∃ tail, [','].intercalate ((a :: as).map write) = write a ++ tail := by
    cases as with
    | nil => exact ⟨[], by simp⟩
    | cons b as => exact ⟨_, by rw [List.map_cons, List.map_cons, List.intercalate_cons_cons,
        List.append_assoc]⟩
  exact ⟨c, cs ++ tail ++ rest, by rw [htail, hcs]; simp, hc⟩

theorem head_dumpsFloat (x : Double) :
    ∃ c cs, dumpsFloat x = c :: cs ∧ c ≠ '"' ∧ c ≠ '[' ∧ c ≠ '\x7b' := by
  cases x with
  | fin q =>
    have hne := reprFloat_ne_empty (.fin q)
    have hnumeric := isNumeric_reprFloat q
    show ∃ c cs, (reprFloat (.fin q)).toList = c :: cs ∧ _
    generalize (reprFloat (.fin q)).toList = cs at hne hnumeric ⊢
    obtain ⟨c, cs, rfl⟩ := List.exists_cons_of_ne_nil hne
    have hc := hnumeric c List.mem_cons_self
    exact ⟨c, cs, rfl, ne_of_isNumeric hc (by decide) (by decide),
      ne_of_isNumeric hc (by decide) (by decide), ne_of_isNumeric hc (by decide) (by decide)⟩
  | posInf => exact ⟨'I', _, rfl, by decide⟩
  | negInf => exact ⟨'-', _, rfl, by decide⟩
  | nan => exact ⟨'N', _, rfl, by decide⟩

/-- A list or an object that is not empty is read as its parts are. -/
theorem readValue_items {body : List Char} (hbody : StartsValue body) (fuel : ℕ) :
    readValue (fuel + 1) ('[' :: body) =
      (readUntil ']' (readValue fuel) fuel body).map fun r => (.array r.1, r.2) := by
  obtain ⟨c, cs, rfl, hspace, hbracket, -⟩ := hbody
  rw [readValue, skipSpace_cons hspace]
  split
  · rename_i heq
    exact absurd (List.cons.inj heq).1 hbracket
  · rfl

theorem readValue_members {body : List Char} (hbody : StartsValue body) (fuel : ℕ) :
    readValue (fuel + 1) ('\x7b' :: body) =
      (readUntil '\x7d' (readMember (readValue fuel)) fuel body).map fun r =>
        (.object (dictOf r.1), r.2) := by
  obtain ⟨c, cs, rfl, hspace, -, hbrace⟩ := hbody
  rw [readValue, skipSpace_cons hspace]
  split
  · rename_i heq
    exact absurd (List.cons.inj heq).1 hbrace
  · rfl

theorem length_lt_intercalate {α : Type} {write : α → List Char}
    (hstart : ∀ a, StartsValue (write a)) (a : α) (as : List α) (rest : List Char) :
    as.length < ([','].intercalate ((a :: as).map write) ++ rest).length := by
  have hle := length_le_intercalate write (fun b => by
    obtain ⟨c, cs, hcs, -⟩ := hstart b
    rw [hcs, List.length_cons]
    omega) (a :: as)
  rw [List.length_append]
  rw [List.length_cons] at hle
  omega

theorem endsNumber_close : (EndsNumber ']' ∧ isJsonSpace ']' = false ∧ (']' : Char) ≠ ',') ∧
    EndsNumber '\x7d' ∧ isJsonSpace '\x7d' = false ∧ ('\x7d' : Char) ≠ ',' := by
  unfold EndsNumber
  decide

section Brackets

variable {fuel : ℕ} {rest : List Char}

theorem readValue_dumpsArray {items : List Value}
    (hone : ∀ v ∈ items, ReadsBack (readValue fuel) dumps fuel v)
    (hfuel : (dumps (.array items) ++ rest).length < fuel + 1) :
    readValue (fuel + 1) (dumps (.array items) ++ rest) = some (.array items, rest) := by
  rw [dumps, dumpsItems_eq] at hfuel ⊢
  cases items with
  | nil => rfl
  | cons w items =>
    have hlt := length_lt_intercalate startsValue_dumps w items (']' :: rest)
    rw [List.cons_append, List.cons_append, List.append_assoc, List.singleton_append] at hfuel ⊢
    rw [List.length_cons] at hfuel
    rw [readValue_items (startsValue_intercalate startsValue_dumps w items _),
      readUntil_intercalate endsNumber_close.1 startsValue_dumps rest w items hone (by omega)
        (by omega), Option.map_some]

theorem readValue_dumpsObject {members : List (List ℕ × Value)}
    (hkeys : (members.map Prod.fst).Nodup) (hpoints : ∀ m ∈ members, Separate m.1)
    (hone : ∀ m ∈ members, ReadsBack (readValue fuel) dumps fuel m.2)
    (hfuel : (dumps (.object members) ++ rest).length < fuel + 1) :
    readValue (fuel + 1) (dumps (.object members) ++ rest) = some (.object members, rest) := by
  rw [dumps, dumpsMembers_eq] at hfuel ⊢
  cases members with
  | nil => rfl
  | cons m members =>
    have hlt := length_lt_intercalate startsValue_dumpsKeyed m members ('\x7d' :: rest)
    rw [List.cons_append, List.cons_append, List.append_assoc, List.singleton_append] at hfuel ⊢
    rw [List.length_cons] at hfuel
    rw [readValue_members (startsValue_intercalate startsValue_dumpsKeyed m members _),
      readUntil_intercalate endsNumber_close.2 startsValue_dumpsKeyed rest m members
        (fun k hk => readMember_dumpsKeyed (hpoints k hk) (hone k hk)) (by omega) (by omega),
      Option.map_some, dictOf_of_nodup hkeys]

end Brackets

/-- **A value that was written is read**, with fuel for each character, up to the character that
ends it. -/
theorem readValue_dumps {v : Value} (hv : Writable v) {fuel n : ℕ} (hfuel : n ≤ fuel) :
    ReadsBack (readValue fuel) dumps n v := by
  intro e rest he hn
  obtain ⟨fuel, rfl⟩ := Nat.exists_eq_succ_of_ne_zero (n := fuel) (by omega)
  induction hv generalizing fuel n e rest with
  | null => rfl
  | bool b => cases b <;> rfl
  | @int k h => exact readValue_dumpsScalar fuel (s := .int k) h he rest
  | @float x h =>
    obtain ⟨c, cs, hcs, hc⟩ := head_dumpsFloat x
    have hread := readPlain_dumpsFloat h he rest
    rw [dumps]
    rw [hcs, List.cons_append] at hread ⊢
    rw [readValue_plain fuel hc, hread]
  | @text points h =>
    have hread := readPoints_dumpsPoints h (e :: rest)
    obtain ⟨cs, hcs⟩ : ∃ cs, dumpsPoints points = '"' :: cs := ⟨_, rfl⟩
    rw [dumps]
    rw [hcs, List.cons_append] at hread ⊢
    rw [readValue, hread]
    rfl
  | @array items h ih =>
    refine readValue_dumpsArray (fun x hx e' rest' he' hn' => ?_) (by omega)
    obtain ⟨fuel, rfl⟩ := Nat.exists_eq_succ_of_ne_zero (n := fuel) (by omega)
    exact ih x hx e' rest' he' hn' fuel le_rfl
  | @object members hkeys hpoints h ih =>
    refine readValue_dumpsObject hkeys hpoints (fun k hk e' rest' he' hn' => ?_) (by omega)
    obtain ⟨fuel, rfl⟩ := Nat.exists_eq_succ_of_ne_zero (n := fuel) (by omega)
    exact ih k hk e' rest' he' hn' fuel le_rfl

/-- **Reading an object that was written gives it back.** -/
theorem loads_dumps {members : List (List ℕ × Value)} (h : Writable (.object members)) :
    loads (dumps (.object members)) = some (.object members) := by
  have hopen : dumps (.object members) = '\x7b' :: (dumpsMembers members ++ ['\x7d']) := rfl
  have hstart : (dumps (.object members)).head? ≠ some '\ufeff' := by
    rw [hopen, List.head?_cons]
    decide
  have hread : readValue ((dumps (.object members)).length + 1) (dumps (.object members)) =
      some (.object members, []) := by
    cases h with
    | object hkeys hpoints hvalues =>
      have hobject : readValue ((dumps (.object members)).length + 1)
          (dumps (.object members) ++ []) = some (.object members, []) :=
        readValue_dumpsObject hkeys hpoints (fun m hm => readValue_dumps (hvalues m hm) le_rfl)
          (by rw [List.append_nil]; omega)
      rwa [List.append_nil] at hobject
  rw [loads, if_neg hstart, hopen, skipSpace_cons (by decide), ← hopen, hread, Option.bind_some]
  rfl

/-! ## The characters that are written -/

theorem ascii_escapePoint (n : ℕ) : ∀ c ∈ escapePoint n, c.toNat < 128 := by
  unfold escapePoint
  split
  · rename_i l hl
    have hall : ∀ e ∈ shortEscapes, e.2.toNat < 128 := by decide
    have hletter := hall _ (mem_of_lookup hl)
    simp only [List.forall_mem_cons]
    exact ⟨by decide, hletter, fun d hd => absurd hd List.not_mem_nil⟩
  · split_ifs with hplain hbmp
    · have hascii : ∀ k : Fin 127, (Char.ofNat k.val).toNat < 128 := by decide
      rw [List.forall_mem_singleton]
      exact hascii ⟨n, by omega⟩
    · exact ascii_escapeUnit _
    · exact List.forall_mem_append.2 ⟨ascii_escapeUnit _, ascii_escapeUnit _⟩

theorem ascii_dumpsPoints (points : List ℕ) : ∀ c ∈ dumpsPoints points, c.toNat < 128 := by
  have hbody : ∀ c ∈ points.flatMap escapePoint, c.toNat < 128 := by
    intro c hc
    obtain ⟨n, -, hn⟩ := List.mem_flatMap.1 hc
    exact ascii_escapePoint n c hn
  rw [dumpsPoints, List.forall_mem_append, List.forall_mem_cons]
  exact ⟨⟨by decide, hbody⟩, by simp⟩

/-- A value is written in ASCII. -/
theorem ascii_dumps {v : Value} (hv : Writable v) : ∀ c ∈ dumps v, c.toNat < 128 := by
  induction hv with
  | null =>
    rw [dumps]
    exact forall_of_all (by decide)
  | bool b =>
    rw [dumps]
    cases b <;> exact forall_of_all (by decide)
  | @int n h => exact ascii_toString n
  | @float x h =>
    cases x with
    | fin q => exact fun c hc => (ascii_reprFloat (.fin q) c hc).1
    | _ => exact forall_of_all (by decide)
  | @text points h => exact ascii_dumpsPoints points
  | @array items h ih =>
    have hbody : ∀ c ∈ [','].intercalate (items.map dumps), c.toNat < 128 := by
      refine forall_mem_intercalate (by decide) fun x hx => ?_
      obtain ⟨v, hv, rfl⟩ := List.mem_map.1 hx
      exact ih v hv
    rw [dumps, dumpsItems_eq, List.forall_mem_append, List.forall_mem_cons]
    exact ⟨⟨by decide, hbody⟩, by simp⟩
  | @object members hkeys hpoints h ih =>
    have hbody : ∀ c ∈ [','].intercalate (members.map dumpsKeyed), c.toNat < 128 := by
      refine forall_mem_intercalate (by decide) fun x hx => ?_
      obtain ⟨m, hm, rfl⟩ := List.mem_map.1 hx
      obtain ⟨key, v⟩ := m
      rw [dumpsKeyed, List.forall_mem_append, List.forall_mem_cons]
      exact ⟨ascii_dumpsPoints key, by decide, ih (key, v) hm⟩
    rw [dumps, dumpsMembers_eq, List.forall_mem_append, List.forall_mem_cons]
    exact ⟨⟨by decide, hbody⟩, by simp⟩

end Py.Json
