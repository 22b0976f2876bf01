import BifrostTrade.Lib.Python
import Mathlib.Data.Int.Log
import Mathlib.Data.List.DropRight
import Mathlib.Data.String.Basic

/-!
# Python text

`str.strip`, `str.upper`, `str.lower`, `str.title` and `str.isdigit`, character by character, and
the texts of numbers.
-/

namespace Py

/-- `str.isspace` for one character. -/
def isSpace (c : Char) : Bool :=
  let n := c.toNat
  (9 ≤ n ∧ n ≤ 13) ∨ (28 ≤ n ∧ n ≤ 32) ∨ n = 0x85 ∨ n = 0xA0 ∨ n = 0x1680 ∨
    (0x2000 ≤ n ∧ n ≤ 0x200A) ∨ n = 0x2028 ∨ n = 0x2029 ∨ n = 0x202F ∨ n = 0x205F ∨ n = 0x3000

/-- Trailing spaces dropped. -/
def rstripChars (cs : List Char) : List Char := cs.rdropWhile isSpace

/-- `str.strip()`. -/
def strip (s : String) : String :=
  String.ofList (rstripChars (s.toList.dropWhile isSpace))

@[simp] theorem strip_empty : strip "" = "" := by decide

/-- A text without spaces is its own stripped text. -/
theorem strip_of_forall {s : String} (h : ∀ c ∈ s.toList, isSpace c = false) : strip s = s := by
  have hdrop : ∀ cs : List Char, (∀ c ∈ cs, isSpace c = false) → cs.dropWhile isSpace = cs := by
    intro cs hcs
    cases cs with
    | nil => rfl
    | cons c cs => exact List.dropWhile_cons_of_neg (by simp [hcs c (List.mem_cons_self ..)])
  have hrev : ∀ c ∈ s.toList.reverse, isSpace c = false := by simpa using h
  rw [strip, rstripChars, List.rdropWhile, hdrop _ h, hdrop _ hrev, List.reverse_reverse,
    String.ofList_toList]

/-- A condition on the elements of a list that is checked one by one. -/
theorem forall_of_all {α : Type*} {p : α → Prop} [DecidablePred p] {l : List α}
    (h : l.all (fun a => decide (p a)) = true) : ∀ a ∈ l, p a := fun a ha =>
  of_decide_eq_true (List.all_eq_true.1 h a ha)

theorem mem_dropWhile {α : Type*} {p : α → Bool} {a : α} (ha : p a = false) {l : List α}
    (h : a ∈ l) : a ∈ l.dropWhile p := by
  rw [← List.takeWhile_append_dropWhile (p := p) (l := l), List.mem_append] at h
  refine h.resolve_left fun htake => ?_
  rw [List.mem_takeWhile_imp htake] at ha
  cases ha

/-- Only spaces are stripped. -/
theorem mem_strip {c : Char} (hc : isSpace c = false) {s : String} (h : c ∈ s.toList) :
    c ∈ (strip s).toList := by
  rw [strip, String.toList_ofList, rstripChars, List.rdropWhile, List.mem_reverse]
  exact mem_dropWhile hc (List.mem_reverse.2 (mem_dropWhile hc h))

/-- What is left between dropped ends does not start with a dropped item. -/
theorem dropWhile_trimmed {α : Type} (p : α → Bool) (xs : List α) :
    ((xs.dropWhile p).rdropWhile p).dropWhile p = (xs.dropWhile p).rdropWhile p := by
  cases hr : (xs.dropWhile p).rdropWhile p with
  | nil => rfl
  | cons x rest =>
    -- the first item kept is the first that is not dropped
    obtain ⟨tail, htail⟩ := List.rdropWhile_prefix p (l := xs.dropWhile p)
    rw [hr] at htail
    refine List.dropWhile_cons_of_neg ?_
    have hne : xs.dropWhile p ≠ [] := by simp [← htail]
    have hx := List.head_dropWhile_not p hne
    simpa [← htail] using hx

/-- Stripping twice is stripping once. -/
theorem strip_strip (s : String) : strip (strip s) = strip s := by
  rw [strip, strip, String.toList_ofList, rstripChars, rstripChars, dropWhile_trimmed]
  exact congrArg String.ofList (List.rdropWhile_idempotent ..)

/-- `str.strip(" ")`, and `trim` in SQL: spaces dropped from both ends. -/
def trimSpaces (s : String) : String :=
  String.ofList (((s.toList.dropWhile (· = ' ')).reverse.dropWhile (· = ' ')).reverse)

/-- Spaces at either end make no difference to the stripped text. -/
theorem strip_append {a mid b : List Char} (ha : ∀ c ∈ a, isSpace c = true)
    (hb : ∀ c ∈ b, isSpace c = true) :
    strip (String.ofList (a ++ mid ++ b)) = strip (String.ofList mid) := by
  have hrev : ∀ c ∈ b.reverse, isSpace c = true := fun c hc => hb c (List.mem_reverse.1 hc)
  rw [strip, strip, String.toList_ofList, String.toList_ofList, List.append_assoc,
    List.dropWhile_append_of_pos ha, List.dropWhile_append, rstripChars, rstripChars]
  congr 1
  split_ifs with hmid
  · rw [List.isEmpty_iff] at hmid
    rw [hmid, List.dropWhile_eq_nil_iff.2 hb]
  · rw [List.rdropWhile, List.reverse_append, List.dropWhile_append_of_pos hrev, List.rdropWhile]

/-- Trimming spaces first makes no difference either. -/
theorem strip_trimSpaces (s : String) : strip (trimSpaces s) = strip s := by
  have hspace : ∀ {l : List Char}, ∀ c ∈ l.takeWhile (fun c => decide (c = ' ')),
      isSpace c = true := by
    intro l c hc
    have hc' : c = ' ' := by simpa using List.mem_takeWhile_imp hc
    rw [hc']
    decide
  have hsplit : s.toList = s.toList.takeWhile (fun c => decide (c = ' ')) ++
      (trimSpaces s).toList ++
      (((s.toList.dropWhile fun c => decide (c = ' ')).reverse.takeWhile
        fun c => decide (c = ' '))).reverse := by
    rw [trimSpaces, String.toList_ofList, List.append_assoc, ← List.reverse_append,
      List.takeWhile_append_dropWhile, List.reverse_reverse, List.takeWhile_append_dropWhile]
  have h : strip (String.ofList s.toList) = strip (String.ofList (trimSpaces s).toList) := by
    rw [hsplit]
    exact strip_append hspace fun c hc => hspace c (List.mem_reverse.1 hc)
  rw [String.ofList_toList, String.ofList_toList] at h
  exact h.symm

/-- `str.upper` for one character, as far as the result has ASCII letters in it; other letters
outside ASCII are left alone. -/
def upperChar (c : Char) : List Char :=
  let n := c.toNat
  if 97 ≤ n ∧ n ≤ 122 then [Char.ofNat (n - 32)]
  else match n with
    | 0xDF => ['S', 'S']
    | 0x131 => ['I']
    | 0x17F => ['S']
    | 0xFB00 => ['F', 'F']
    | 0xFB01 => ['F', 'I']
    | 0xFB02 => ['F', 'L']
    | 0xFB03 => ['F', 'F', 'I']
    | 0xFB04 => ['F', 'F', 'L']
    | 0xFB05 => ['S', 'T']
    | 0xFB06 => ['S', 'T']
    | _ => [c]

/-- `str.upper()`. -/
def upper (s : String) : String :=
  String.ofList (s.toList.flatMap upperChar)

theorem upperChar_ne_nil (c : Char) : upperChar c ≠ [] := by
  unfold upperChar
  dsimp only
  split_ifs
  · simp
  · split <;> simp

/-- Upper case makes no space and takes none away. -/
theorem isSpace_of_mem_upperChar {c x : Char} (h : x ∈ upperChar c) : isSpace x = isSpace c := by
  unfold upperChar at h
  dsimp only at h
  split_ifs at h with hlower
  · have hletter : ∀ k : Fin 26, isSpace (Char.ofNat (97 + k - 32)) = false ∧
        isSpace (Char.ofNat (97 + k)) = false := by decide
    obtain ⟨hup, hlow⟩ := hletter ⟨c.toNat - 97, by omega⟩
    have hc : 97 + (c.toNat - 97) = c.toNat := by omega
    rw [hc] at hup hlow
    rw [List.mem_singleton.1 h, hup, ← Char.ofNat_toNat c, hlow]
  · have hletters : ∀ {n : ℕ} {l : List Char}, c.toNat = n → x ∈ l →
        l.all (fun y => !isSpace y) = true →
        isSpace (Char.ofNat n) = false → isSpace x = isSpace c := by
      rintro n l rfl hx hl hc
      rw [Char.ofNat_toNat] at hc
      have hx := List.all_eq_true.1 hl x hx
      simp only [Bool.not_eq_true'] at hx
      rw [hx, hc]
    split at h
    case h_11 => rw [List.mem_singleton.1 h]
    all_goals
      rename_i hn
      exact hletters hn h (by decide) (by decide)

theorem dropWhile_flatMap {p : Char → Bool} {f : Char → List Char}
    (hf : ∀ c, ∀ x ∈ f c, p x = p c) (hne : ∀ c, f c ≠ []) (cs : List Char) :
    (cs.flatMap f).dropWhile p = (cs.dropWhile p).flatMap f := by
  induction cs with
  | nil => rfl
  | cons c cs ih =>
    rw [List.flatMap_cons]
    cases hc : p c with
    | true =>
      rw [List.dropWhile_append_of_pos fun x hx => (hf c x hx).trans hc, ih,
        List.dropWhile_cons_of_pos hc]
    | false =>
      obtain ⟨x, xs, hx⟩ := List.exists_cons_of_ne_nil (hne c)
      have hpx : p x = false := (hf c x (hx ▸ List.mem_cons_self ..)).trans hc
      rw [List.dropWhile_cons_of_neg (by simp [hc]), List.flatMap_cons, hx, List.cons_append,
        List.dropWhile_cons_of_neg (by simp [hpx])]

/-- A text in which each character is replaced by some, spaces by spaces, is stripped as it. -/
theorem strip_flatMap {f : Char → List Char} (hf : ∀ c, ∀ x ∈ f c, isSpace x = isSpace c)
    (hne : ∀ c, f c ≠ []) (s : String) :
    strip (String.ofList (s.toList.flatMap f)) = String.ofList ((strip s).toList.flatMap f) := by
  have hrev : ∀ c, ∀ x ∈ (f c).reverse, isSpace x = isSpace c := fun c x hx =>
    hf c x (List.mem_reverse.1 hx)
  have hrevne : ∀ c, (f c).reverse ≠ [] := fun c h => hne c (List.reverse_eq_nil_iff.1 h)
  rw [strip, strip, String.toList_ofList, String.toList_ofList, dropWhile_flatMap hf hne,
    rstripChars, rstripChars, List.rdropWhile, List.rdropWhile, List.reverse_flatMap]
  refine congrArg String.ofList ?_
  have hdrop := dropWhile_flatMap hrev hrevne (s.toList.dropWhile isSpace).reverse
  rw [show (List.reverse ∘ f) = fun c => (f c).reverse from rfl, hdrop, List.reverse_flatMap]
  simp [Function.comp_def]

theorem strip_upper (s : String) : strip (upper s) = upper (strip s) :=
  strip_flatMap (fun _ _ => isSpace_of_mem_upperChar) upperChar_ne_nil s

theorem upperChar_of_mem {c x : Char} (h : x ∈ upperChar c) : upperChar x = [x] := by
  have hcapital : ∀ k : Fin 26, upperChar (Char.ofNat (65 + k)) = [Char.ofNat (65 + k)] := by decide
  unfold upperChar at h
  dsimp only at h
  split_ifs at h with hlower
  · have hk := hcapital ⟨c.toNat - 97, by omega⟩
    have hc : 65 + (c.toNat - 97) = c.toNat - 32 := by omega
    rw [List.mem_singleton.1 h, ← hc]
    exact hk
  · split at h
    case h_11 hother =>
      rw [List.mem_singleton.1 h, upperChar, if_neg hlower]
      split <;> first | rfl | (rename_i hn; exact absurd hn (by assumption))
    all_goals
      simp only [List.mem_cons, List.not_mem_nil, or_false] at h
      rcases h with rfl | rfl | rfl <;> decide

@[simp] theorem upper_upper (s : String) : upper (upper s) = upper s := by
  have hchars : ∀ cs : List Char, (cs.flatMap upperChar).flatMap upperChar =
      cs.flatMap upperChar := by
    intro cs
    rw [List.flatMap_assoc]
    refine List.flatMap_congr fun c _ => ?_
    have hsingle : ∀ l : List Char, (∀ x ∈ l, upperChar x = [x]) → l.flatMap upperChar = l := by
      intro l hl
      rw [List.flatMap_congr hl, List.flatMap_singleton']
    exact hsingle _ fun x hx => upperChar_of_mem hx
  rw [upper, upper, String.toList_ofList, hchars]

/-- A stripped text does not start with a space. -/
theorem isSpace_of_strip {s : String} {c : Char} {cs : List Char} (h : strip s = s)
    (hs : s.toList = c :: cs) : isSpace c = false := by
  by_contra hc
  have hlength := congrArg (List.length ∘ String.toList) h
  rw [Function.comp_apply, Function.comp_apply, strip, String.toList_ofList, hs,
    List.dropWhile_cons_of_pos (by simpa using hc)] at hlength
  have hdrop := (List.dropWhile_suffix isSpace (l := cs)).length_le
  have hrdrop := (List.rdropWhile_prefix isSpace (l := cs.dropWhile isSpace)).length_le
  simp only [rstripChars, List.length_cons] at hlength
  omega

/-- A text that neither starts nor ends with a space is its own stripped text. -/
theorem strip_of_ends {s : String} {a z : Char} {mid : List Char}
    (hs : s.toList = a :: (mid ++ [z])) (ha : isSpace a = false) (hz : isSpace z = false) :
    strip s = s := by
  have hlast : (a :: (mid ++ [z])).rdropWhile isSpace = a :: (mid ++ [z]) := by
    rw [← List.cons_append, List.rdropWhile_concat_neg _ _ _ (by simp [hz])]
  rw [strip, rstripChars, hs, List.dropWhile_cons_of_neg (by simp [ha]), hlast, ← hs,
    String.ofList_toList]

/-- A text is stripped when neither its first nor its last character is a space. -/
theorem strip_eq_self_iff {s : String} : strip s = s ↔
    (∀ c ∈ s.toList.head?, isSpace c = false) ∧ ∀ c ∈ s.toList.getLast?, isSpace c = false := by
  have hlist : strip s = s ↔ (s.toList.dropWhile isSpace).rdropWhile isSpace = s.toList := by
    rw [strip, rstripChars, ← String.toList_inj, String.toList_ofList]
  rw [hlist]
  have hdrop : s.toList.dropWhile isSpace = s.toList ↔
      ∀ c ∈ s.toList.head?, isSpace c = false := by
    cases s.toList with
    | nil => simp
    | cons c cs =>
      rw [List.dropWhile_cons]
      split_ifs with hc
      · refine ⟨fun h => ?_, fun h => ?_⟩
        · have hlength := (List.dropWhile_suffix isSpace (l := cs)).length_le
          rw [h, List.length_cons] at hlength
          omega
        · rw [h c rfl] at hc
          cases hc
      · simpa using hc
  have hrdrop : s.toList.rdropWhile isSpace = s.toList ↔
      ∀ c ∈ s.toList.getLast?, isSpace c = false := by
    rw [List.rdropWhile_eq_self_iff]
    constructor
    · intro h c hc
      obtain ⟨hne, rfl⟩ := List.mem_getLast?_eq_getLast hc
      simpa using h hne
    · intro h hne
      simpa using h _ (List.getLast?_eq_some_getLast hne)
  rw [← hdrop, ← hrdrop]
  constructor
  · intro h
    have hsuffix := (List.dropWhile_suffix isSpace (l := s.toList)).length_le
    have hprefix := (List.rdropWhile_prefix isSpace (l := s.toList.dropWhile isSpace)).length_le
    rw [h] at hprefix
    have hself : s.toList.dropWhile isSpace = s.toList :=
      (List.dropWhile_suffix isSpace).eq_of_length_le hprefix
    rw [hself] at h
    exact ⟨hself, h⟩
  · rintro ⟨hd, hr⟩
    rw [hd, hr]

/-- `str.lower` for one character, as far as the result has ASCII letters in it. -/
def lowerChar (c : Char) : List Char :=
  let n := c.toNat
  if 65 ≤ n ∧ n ≤ 90 then [Char.ofNat (n + 32)]
  else match n with
    | 0x130 => ['i', Char.ofNat 0x307]
    | 0x212A => ['k']
    | _ => [c]

/-- `str.lower()`. -/
def lower (s : String) : String :=
  String.ofList (s.toList.flatMap lowerChar)

theorem lowerChar_ne_nil (c : Char) : lowerChar c ≠ [] := by
  unfold lowerChar
  dsimp only
  split_ifs
  · simp
  · split <;> simp

/-- Lower case makes no space and takes none away. -/
theorem isSpace_of_mem_lowerChar {c x : Char} (h : x ∈ lowerChar c) : isSpace x = isSpace c := by
  unfold lowerChar at h
  dsimp only at h
  split_ifs at h with hcapital
  · have hletter : ∀ k : Fin 26, isSpace (Char.ofNat (65 + k + 32)) = false ∧
        isSpace (Char.ofNat (65 + k)) = false := by decide
    obtain ⟨hlow, hup⟩ := hletter ⟨c.toNat - 65, by omega⟩
    have hc : 65 + (c.toNat - 65) = c.toNat := by omega
    rw [hc] at hup hlow
    rw [List.mem_singleton.1 h, hlow, ← Char.ofNat_toNat c, hup]
  · split at h
    case h_1 hn =>
      have hspace : isSpace (Char.ofNat 304) = false := by decide
      rw [← Char.ofNat_toNat c, hn, hspace]
      rcases List.mem_cons.1 h with rfl | h
      · decide
      · rw [List.mem_singleton.1 h]
        decide
    case h_2 hn =>
      have hspace : isSpace (Char.ofNat 8490) = false := by decide
      rw [← Char.ofNat_toNat c, hn, hspace, List.mem_singleton.1 h]
      decide
    case h_3 => rw [List.mem_singleton.1 h]

theorem lowerChar_of_mem {c x : Char} (h : x ∈ lowerChar c) : lowerChar x = [x] := by
  have hsmall : ∀ k : Fin 26, lowerChar (Char.ofNat (97 + k)) = [Char.ofNat (97 + k)] := by decide
  unfold lowerChar at h
  dsimp only at h
  split_ifs at h with hcapital
  · have hk := hsmall ⟨c.toNat - 65, by omega⟩
    have hc : 97 + (c.toNat - 65) = c.toNat + 32 := by omega
    rw [List.mem_singleton.1 h, ← hc]
    exact hk
  · split at h
    case h_3 hother =>
      rw [List.mem_singleton.1 h, lowerChar, if_neg hcapital]
      split <;> first | rfl | (rename_i hn; exact absurd hn (by assumption))
    all_goals
      simp only [List.mem_cons, List.not_mem_nil, or_false] at h
      rcases h with rfl | rfl <;> decide

theorem strip_lower (s : String) : strip (lower s) = lower (strip s) :=
  strip_flatMap (fun _ _ => isSpace_of_mem_lowerChar) lowerChar_ne_nil s

@[simp] theorem lower_lower (s : String) : lower (lower s) = lower s := by
  rw [lower, lower, String.toList_ofList, List.flatMap_assoc]
  refine congrArg String.ofList (List.flatMap_congr fun c _ => ?_)
  rw [List.flatMap_congr fun x hx => lowerChar_of_mem hx, List.flatMap_singleton']

/-- Letters with a case, as far as `upper` and `lower` change them. -/
def isCased (c : Char) : Bool := upperChar c ≠ [c] ∨ lowerChar c ≠ [c]

/-- The title case of one character. -/
def titleChar (c : Char) : List Char :=
  (upperChar c).take 1 ++ ((upperChar c).drop 1).flatMap lowerChar

/-- Each character in its case: title case at the start of a word, else lower case. -/
def titleChars (inWord : Bool) : List Char → List Char
  | [] => []
  | c :: cs => (if inWord then lowerChar c else titleChar c) ++ titleChars (isCased c) cs

/-- `str.title()`, as far as ASCII letters. -/
def title (s : String) : String := String.ofList (titleChars false s.toList)

example : title "portfolio flex2x" = "Portfolio Flex2X" := by decide

theorem mem_titleChar {c x : Char} (h : x ∈ titleChar c) : isSpace x = isSpace c := by
  rcases List.mem_append.1 h with hfirst | hrest
  · exact isSpace_of_mem_upperChar (List.mem_of_mem_take hfirst)
  · obtain ⟨y, hy, hx⟩ := List.mem_flatMap.1 hrest
    rw [isSpace_of_mem_lowerChar hx, isSpace_of_mem_upperChar (List.mem_of_mem_drop hy)]

/-- What title case makes of a character: some characters that are spaces if it is one. -/
theorem titlePart (inWord : Bool) (c : Char) :
    (if inWord then lowerChar c else titleChar c) ≠ [] ∧
      ∀ x ∈ (if inWord then lowerChar c else titleChar c), isSpace x = isSpace c := by
  cases inWord with
  | true => exact ⟨lowerChar_ne_nil c, fun x hx => isSpace_of_mem_lowerChar hx⟩
  | false =>
    refine ⟨fun h => ?_, fun x hx => mem_titleChar hx⟩
    obtain ⟨y, ys, hy⟩ := List.exists_cons_of_ne_nil (upperChar_ne_nil c)
    rw [if_neg (by decide), titleChar, hy] at h
    simp at h

theorem head?_title (s : String) :
    (title s).toList.head?.map isSpace = s.toList.head?.map isSpace := by
  rw [title, String.toList_ofList]
  cases s.toList with
  | nil => rfl
  | cons c cs =>
    obtain ⟨hne, hspace⟩ := titlePart false c
    rw [titleChars, List.head?_append_of_ne_nil _ hne, List.head?_eq_some_head hne,
      Option.map_some, hspace _ (List.head_mem hne), List.head?_cons, Option.map_some]

theorem getLast?_title (s : String) :
    (title s).toList.getLast?.map isSpace = s.toList.getLast?.map isSpace := by
  have hchars : ∀ (cs : List Char) (inWord : Bool),
      (titleChars inWord cs).getLast?.map isSpace = cs.getLast?.map isSpace := by
    intro cs
    induction cs with
    | nil => exact fun _ => rfl
    | cons c cs ih =>
      intro inWord
      obtain ⟨hne, hspace⟩ := titlePart inWord c
      rw [titleChars, List.getLast?_append, List.getLast?_cons]
      cases cs with
      | nil =>
        rw [titleChars, List.getLast?_nil, Option.none_or, List.getLast?_eq_some_getLast hne,
          Option.map_some, hspace _ (List.getLast_mem hne)]
        rfl
      | cons d cs =>
        have hsome := ih (isCased c)
        rw [List.getLast?_cons, Option.map_some] at hsome
        obtain ⟨x, hx, hspace⟩ := Option.map_eq_some_iff.1 hsome
        rw [hx, List.getLast?_cons, Option.some_or, Option.map_some, Option.getD_some,
          Option.map_some, hspace]
  rw [title, String.toList_ofList, hchars]

/-- The zeros of the decimal digits that `str.isdecimal` accepts. -/
def decimalZeros : List ℕ :=
  [0x30, 0x660, 0x6F0, 0x7C0, 0x966, 0x9E6, 0xA66, 0xAE6, 0xB66, 0xBE6, 0xC66, 0xCE6, 0xD66,
    0xDE6, 0xE50, 0xED0, 0xF20, 0x1040, 0x1090, 0x17E0, 0x1810, 0x1946, 0x19D0, 0x1A80, 0x1A90,
    0x1B50, 0x1BB0, 0x1C40, 0x1C50, 0xA620, 0xA8D0, 0xA900, 0xA9D0, 0xA9F0, 0xAA50, 0xABF0,
    0xFF10, 0x104A0, 0x10D30, 0x11066, 0x110F0, 0x11136, 0x111D0, 0x112F0, 0x11450, 0x114D0,
    0x11650, 0x116C0, 0x11730, 0x118E0, 0x11950, 0x11C50, 0x11D50, 0x11DA0, 0x16A60, 0x16AC0,
    0x16B50, 0x1D7CE, 0x1D7D8, 0x1D7E2, 0x1D7EC, 0x1D7F6, 0x1E140, 0x1E2F0, 0x1E950, 0x1FBF0]

/-- The value of a decimal digit. -/
def decimalValue (c : Char) : Option ℕ :=
  (decimalZeros.find? fun z => z ≤ c.toNat ∧ c.toNat < z + 10).map fun z => c.toNat - z

/-- `str.isdecimal` for one character, and `\d` in a pattern. -/
def isDecimal (c : Char) : Bool := (decimalValue c).isSome

/-- The digits that are not decimal, as first and last code points. -/
def otherDigitRanges : List (ℕ × ℕ) :=
  [(0xB2, 0xB3), (0xB9, 0xB9), (0x1369, 0x1371), (0x19DA, 0x19DA), (0x2070, 0x2070),
    (0x2074, 0x2079), (0x2080, 0x2089), (0x2460, 0x2468), (0x2474, 0x247C), (0x2488, 0x2490),
    (0x24EA, 0x24EA), (0x24F5, 0x24FD), (0x24FF, 0x24FF), (0x2776, 0x277E), (0x2780, 0x2788),
    (0x278A, 0x2792), (0x10A40, 0x10A43), (0x10E60, 0x10E68), (0x11052, 0x1105A),
    (0x1F100, 0x1F10A)]

/-- `str.isdigit` for one character. -/
def isDigit (c : Char) : Bool :=
  isDecimal c ∨ otherDigitRanges.any fun r => r.1 ≤ c.toNat ∧ c.toNat ≤ r.2

/-- `s or ""` for a text that may be missing. -/
def textOrEmpty (s : Option String) : String := s.getD ""

example : upper (strip " opt\n") = "OPT" := by decide

/-! ## Numbers as text -/

/-- The number that decimal digits spell. -/
def digitsValue (ds : List ℕ) : ℕ := ds.foldl (fun n d => 10 * n + d) 0

/-- Decimal digits from the front, single underscores between them allowed. -/
def takeDigits (afterDigit : Bool) : List Char → List ℕ × List Char
  | [] => ([], [])
  | c :: cs =>
      match decimalValue c with
      | some d =>
          let r := takeDigits true cs
          (d :: r.1, r.2)
      | none =>
          if c = '_' ∧ afterDigit ∧ (cs.head?.bind decimalValue).isSome then takeDigits false cs
          else ([], c :: cs)

/-- A sign from the front: whether it is a minus, and the rest. -/
def takeSign : List Char → Bool × List Char
  | '-' :: cs => (true, cs)
  | '+' :: cs => (false, cs)
  | cs => (false, cs)

/-- An exponent and nothing after it. -/
def parseExponent : List Char → Option ℤ
  | [] => some 0
  | c :: cs =>
      if c = 'e' ∨ c = 'E' then
        let (neg, cs) := takeSign cs
        match takeDigits false cs with
        | (d :: ds, []) => some (if neg then -digitsValue (d :: ds) else digitsValue (d :: ds))
        | _ => none
      else none

/-- Digits, a fraction and an exponent. -/
def parseDecimal (cs : List Char) : Option ℚ :=
  let (whole, cs) := takeDigits false cs
  let (frac, cs) := match cs with
    | '.' :: cs => takeDigits false cs
    | cs => ([], cs)
  if whole = [] ∧ frac = [] then none
  else (parseExponent cs).map fun e =>
    (digitsValue (whole ++ frac) : ℚ) * (10 : ℚ) ^ (e - (frac.length : ℤ))

/-- The exponent of the last binary place of the doubles around `x`. -/
def lastPlace (x : ℚ) : ℤ := max (Int.log 2 |x| - 52) (-1074)

/-- The nearest multiple of the last place. -/
def nearestMultiple (x : ℚ) : ℚ := round (x / 2 ^ lastPlace x) * 2 ^ lastPlace x

/-- The nearest double. -/
def nearest (x : ℚ) : Double :=
  if 2 ^ 1024 ≤ nearestMultiple x then .posInf
  else if nearestMultiple x ≤ -2 ^ 1024 then .negInf
  else .fin (nearestMultiple x)

/-- The number that a text spells for `float`; `none` where it raises `ValueError`. -/
def parseFloat (s : String) : Option Double :=
  let (neg, cs) := takeSign (strip s).toList
  let word := upper (String.ofList cs)
  if word = "INF" ∨ word = "INFINITY" then some (if neg then .negInf else .posInf)
  else if word = "NAN" then some .nan
  else (parseDecimal cs).map fun x => .fin (if neg then -x else x)

example : parseFloat " -1_0.25e1" = some (.fin (-205 / 2)) := by decide +kernel

/-- `float(s)` of a text: the nearest double; `none` where it raises `ValueError`. -/
def readFloat (s : String) : Option Double :=
  (parseFloat s).map fun
    | .fin x => nearest x
    | d => d

/-- The text of a natural number, with zeros in front up to a width. -/
def natText (width n : ℕ) : List Char :=
  let ds := Nat.toDigits 10 n
  List.replicate (width - ds.length) '0' ++ ds

theorem exists_digit {c : Char} (h : c.isDigit = true) : ∃ d : Fin 10, c = Char.ofNat (48 + d) := by
  simp only [Char.isDigit, Bool.and_eq_true, decide_eq_true_eq, ge_iff_le,
    UInt32.le_iff_toNat_le] at h
  have hlow : 48 ≤ c.toNat := h.1
  have hhigh : c.toNat ≤ 57 := h.2
  refine ⟨⟨c.toNat - 48, by omega⟩, ?_⟩
  rw [show 48 + (c.toNat - 48) = c.toNat by omega, Char.ofNat_toNat]

theorem isDigit_of_mem_toDigits {n : ℕ} : ∀ c ∈ Nat.toDigits 10 n, c.isDigit = true :=
  fun _ h => Nat.isDigit_of_mem_toDigits (by decide) (by decide) h

theorem isDigit_of_mem_natText {width n : ℕ} {c : Char} (h : c ∈ natText width n) :
    c.isDigit = true := by
  rcases List.mem_append.1 h with h | h
  · rw [List.eq_of_mem_replicate h]
    decide
  · exact Nat.isDigit_of_mem_toDigits (by decide) (by decide) h

/-- The characters of printed numbers. -/
def IsNumeric (c : Char) : Prop := c.isDigit = true ∨ c ∈ ['-', '+', '.', 'e']

/-- Two texts before their first separator. -/
theorem append_separator_inj {a : Char} {x x' y y' : List Char} (hx : a ∉ x) (hx' : a ∉ x')
    (h : x ++ a :: y = x' ++ a :: y') : x = x' ∧ y = y' := by
  induction x generalizing x' with
  | nil =>
    cases x' with
    | nil => exact ⟨rfl, (List.cons.inj h).2⟩
    | cons b x' => exact absurd (List.cons.inj h).1 fun heq => hx' (heq ▸ List.mem_cons_self)
  | cons b x ih =>
    cases x' with
    | nil => exact absurd (List.cons.inj h).1 fun heq => hx (heq ▸ List.mem_cons_self)
    | cons b' x' =>
      obtain ⟨rfl, htail⟩ := List.cons.inj h
      obtain ⟨rfl, rfl⟩ := ih (fun hmem => hx (List.mem_cons_of_mem _ hmem))
        (fun hmem => hx' (List.mem_cons_of_mem _ hmem)) htail
      exact ⟨rfl, rfl⟩

/-! ## Values of a payload -/

/-- A scalar of a payload; a boolean counts as the number it equals. -/
inductive Value where
  | none
  | number (x : Double)
  | text (s : String)
  deriving DecidableEq

namespace Value

/-- Whether `value` counts as true, for `value or other`. -/
def truthy : Value → Bool
  | none => false
  | number x => x ≠ .fin 0
  | text s => s ≠ ""

/-- `float(value)`, where it does not raise. -/
def toFloat : Value → Option Double
  | none => Option.none
  | number x => some x
  | text s => readFloat s

/-- `float(value)` when that is a finite number, else `None`. -/
def finite (v : Value) : Option ℚ :=
  match v.toFloat with
  | some (.fin x) => some x
  | _ => Option.none

end Value

end Py
