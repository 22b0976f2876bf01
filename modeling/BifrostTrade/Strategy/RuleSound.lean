import BifrostTrade.Strategy.AllocationWrite
import BifrostTrade.Strategy.TradeReview

/-!
# Sound rows

What the writers promise of the rows they store: texts that are not blank, a watchlist rule with its
symbols, limits that are not negative, tags in their bounds.  The database checks none of it.
-/

namespace Strategy

open Py Sql
open Portfolio (WriteSupport.text WriteSupport.integer WriteSupport.number WriteSupport.bounded
  WriteSupport.finiteFrom WriteSupport.refuse WriteSupport.refuseWith)

/-! ## Texts -/

/-- A text of more than spaces. -/
def NotBlank (s : String) : Prop := strip s ≠ ""

instance (s : String) : Decidable (NotBlank s) := inferInstanceAs (Decidable (_ ≠ _))

/-- Code points of which the first is no space. -/
def StartsSolid (points : List ℕ) : Prop := ∃ n ∈ points.head?, isSpacePoint n = false

theorem startsSolid_stripPoints {points : List ℕ} (h : stripPoints points ≠ []) :
    StartsSolid (stripPoints points) := by
  have htrim : (stripPoints points).dropWhile isSpacePoint = stripPoints points :=
    dropWhile_trimmed isSpacePoint points
  cases hp : stripPoints points with
  | nil => exact absurd hp h
  | cons n rest =>
    refine ⟨n, rfl, ?_⟩
    by_contra hspace
    rw [hp, List.dropWhile_cons_of_pos (by simpa using hspace)] at htrim
    have hle := List.length_dropWhile_le isSpacePoint rest
    rw [htrim, List.length_cons] at hle
    omega

/-- A cut leaves the start. -/
theorem StartsSolid.take {points : List ℕ} {k : ℕ} (hk : 0 < k) (h : StartsSolid points) :
    StartsSolid (points.take k) := by
  obtain ⟨n, hn, hsolid⟩ := h
  exact ⟨n, by rwa [List.head?_take, if_neg hk.ne'], hsolid⟩

theorem notBlank_pointsText {points : List ℕ} (h : StartsSolid points) :
    NotBlank (pointsText points) := by
  obtain ⟨n, hn, hsolid⟩ := h
  have hmem : Char.ofNat n ∈ (pointsText points).toList := by
    rw [pointsText, String.toList_ofList]
    exact List.mem_map_of_mem (List.mem_of_mem_head? hn)
  intro hblank
  have hin := mem_strip hsolid hmem
  rw [hblank, String.toList_empty] at hin
  exact absurd hin List.not_mem_nil

theorem storedText_eq_some_iff {points : List ℕ} {s : String} :
    storedText points = some s ↔ (∀ n ∈ points, n.isValidChar ∧ n ≠ 0) ∧ pointsText points = s := by
  have hall : (points.all fun n => decide (n.isValidChar ∧ n ≠ 0)) = true ↔
      ∀ n ∈ points, n.isValidChar ∧ n ≠ 0 := by
    simp only [List.all_eq_true, decide_eq_true_eq]
  unfold storedText
  split
  · rename_i hvalid
    exact ⟨fun h => ⟨hall.1 hvalid, Option.some.inj h⟩, fun h => congrArg some h.2⟩
  · rename_i hinvalid
    exact iff_of_false nofun fun h => hinvalid (hall.2 h.1)

theorem notBlank_of_storedText {points : List ℕ} {s : String} (hsolid : StartsSolid points)
    (h : storedText points = some s) : NotBlank s :=
  (storedText_eq_some_iff.1 h).2 ▸ notBlank_pointsText hsolid

theorem toNat_ofNat_of_valid {n : ℕ} (h : n.isValidChar) : (Char.ofNat n).toNat = n := by
  rw [Char.ofNat, dif_pos h]
  rfl

/-- A stored text has the points that were sent. -/
theorem pointsOfText_of_storedText {points : List ℕ} {s : String}
    (h : storedText points = some s) : pointsOfText s = points := by
  obtain ⟨hvalid, rfl⟩ := storedText_eq_some_iff.1 h
  rw [pointsOfText, pointsText, String.toList_ofList, List.map_map]
  refine (List.map_congr_left fun n hn => ?_).trans (List.map_id _)
  exact toNat_ofNat_of_valid (hvalid n hn).1

/-- What is stored is sent again as it is. -/
theorem eq_of_storedText_pointsOfText {s s' : String}
    (h : storedText (pointsOfText s) = some s') : s' = s := by
  rw [← (storedText_eq_some_iff.1 h).2, pointsText, pointsOfText, List.map_map]
  have hid : Char.ofNat ∘ Char.toNat = id := funext Char.ofNat_toNat
  rw [hid, List.map_id, String.ofList_toList]

/-! ## Checks that pass -/

section Checks

variable {α β ε : Type}

@[simp] theorem checked_eq_ok_iff {r : Except Failure α} {a : α} :
    checked r = .ok a ↔ r = .ok a := by
  cases r <;> simp [checked]

@[simp] theorem orError_eq_ok_iff {e : ε} {o : Option α} {a : α} :
    orError e o = .ok a ↔ o = some a := by
  cases o <;> simp [orError]

@[simp] theorem toOption_eq_some_iff {r : Except ε α} {a : α} :
    r.toOption = some a ↔ r = .ok a := by
  cases r <;> simp [Except.toOption]

theorem optionally_eq_ok_iff {f : α → Except ε β} {o : Option α} {r : Option β} :
    optionally f o = .ok r ↔
      (o = none ∧ r = none) ∨ ∃ a b, o = some a ∧ f a = .ok b ∧ r = some b := by
  cases o with
  | none => simp [optionally, eq_comm]
  | some a =>
    rw [optionally, map_ok_iff]
    constructor
    · rintro ⟨b, hb, rfl⟩
      exact .inr ⟨a, b, rfl, hb, rfl⟩
    · rintro (⟨h, -⟩ | ⟨a', b, heq, hb, rfl⟩)
      · cases h
      · obtain rfl := Option.some.inj heq
        exact ⟨b, hb, rfl⟩

/-- What holds of every answer of the check holds of the field, where it was sent. -/
theorem forall_of_sent {fields : Json.Members} {name : String}
    {check : Json.Value → Except Failure α} {r : Option α} {P : α → Prop}
    (hP : ∀ v a, check v = .ok a → P a) (h : sent fields name check = .ok r) : ∀ a ∈ r, P a := by
  unfold sent at h
  split at h
  · rename_i v _
    obtain ⟨a, ha, rfl⟩ := map_ok_iff.1 h
    intro a' ha'
    obtain rfl := Option.some.inj ha'
    exact hP v a ha
  · obtain rfl := Except.ok.inj h
    exact fun a ha => absurd ha (Option.not_mem_none a)

end Checks

theorem refuseWith_ne_ok {α : Type} {name before after : String} {n : ℤ} {a : α} :
    WriteSupport.refuseWith name before n after ≠ .ok a := by
  unfold WriteSupport.refuseWith
  split <;> exact nofun

theorem solid_of_text {v : Json.Value} {name : String} {nullable : Bool} {maxLen : Option ℤ}
    {out : List ℕ} (h : WriteSupport.text v name nullable maxLen = .ok (some out)) :
    StartsSolid out ∧ ∀ m ∈ maxLen, (out.length : ℤ) ≤ m := by
  unfold WriteSupport.text at h
  split at h
  · split at h
    · cases h
    · cases h
  · dsimp only at h
    split at h
    · split at h
      · cases h
      · cases h
    · rename_i points hne
      split at h
      · rename_i m
        split at h
        · exact absurd h refuseWith_ne_ok
        · rename_i hle
          obtain rfl := Option.some.inj (Except.ok.inj h)
          refine ⟨startsSolid_stripPoints hne, fun m' hm' => ?_⟩
          obtain rfl := Option.some.inj hm'
          omega
      · obtain rfl := Option.some.inj (Except.ok.inj h)
        exact ⟨startsSolid_stripPoints hne, fun m hm => absurd hm (Option.not_mem_none m)⟩
  · cases h

/-- A text that may not be null is there where the check passes. -/
theorem solid_of_required {v : Json.Value} {name : String} {maxLen : Option ℤ} {out : List ℕ}
    (h : required (WriteSupport.text v name false maxLen) = .ok out) :
    StartsSolid out ∧ ∀ m ∈ maxLen, (out.length : ℤ) ≤ m := by
  obtain ⟨r, hr, hout⟩ := map_ok_iff.1 h
  cases r with
  | some text =>
    obtain rfl : text = out := hout
    exact solid_of_text hr
  | none =>
    -- `None` is answered for null alone, which is refused
    unfold WriteSupport.text at hr
    split at hr
    · cases hr
    · dsimp only at hr
      split at hr
      · cases hr
      · split at hr
        · split at hr
          · exact absurd hr refuseWith_ne_ok
          · cases hr
        · cases hr
    · cases hr

theorem le_of_integer {v : Json.Value} {name : String} {nullable : Bool} {m : ℤ} {r : Option ℤ}
    (h : WriteSupport.integer v name nullable (some m) = .ok r) : ∀ n ∈ r, m ≤ n := by
  have hbounded : ∀ n, WriteSupport.bounded name (some m) n = .ok r → ∀ n ∈ r, m ≤ n := by
    intro n hn
    unfold WriteSupport.bounded at hn
    dsimp only at hn
    split at hn
    · exact absurd hn refuseWith_ne_ok
    · rename_i hle
      obtain rfl := Except.ok.inj hn
      intro n' hn'
      obtain rfl := Option.some.inj hn'
      exact not_lt.1 hle
  unfold WriteSupport.integer at h
  split at h
  · split at h
    · obtain rfl := Except.ok.inj h
      exact fun n hn => absurd hn (Option.not_mem_none n)
    · cases h
  · exact hbounded _ h
  · split at h
    · exact hbounded _ h
    · cases h
  · split at h
    · split at h
      · exact hbounded _ h
      · cases h
    · cases h
  · cases h

/-- A limit that is a number: finite, and not negative. -/
def LimitNumber (x : Double) : Prop := ∃ q : ℚ, x = .fin q ∧ 0 ≤ q

theorem limit_of_number {v : Json.Value} {name : String} {nullable : Bool} {r : Option Double}
    (h : WriteSupport.number v name nullable (some (.fin 0)) = .ok r) : ∀ x ∈ r, LimitNumber x := by
  have hfinite : ∀ x, WriteSupport.finiteFrom name (some (.fin 0)) x = .ok r →
      ∀ x ∈ r, LimitNumber x := by
    intro x hx
    unfold WriteSupport.finiteFrom at hx
    split at hx
    · cases hx
    · rename_i hfin
      dsimp only at hx
      split at hx
      · cases hx
      · rename_i hlt
        obtain rfl := Except.ok.inj hx
        intro x' hx'
        obtain rfl := Option.some.inj hx'
        cases x with
        | fin q => exact ⟨q, rfl, by simpa [Double.lt] using hlt⟩
        | _ => exact absurd rfl hfin
  unfold WriteSupport.number at h
  split at h
  · split at h
    · obtain rfl := Except.ok.inj h
      exact fun x hx => absurd hx (Option.not_mem_none x)
    · cases h
  · split at h
    · exact hfinite _ h
    · cases h
  · split at h
    · exact hfinite _ h
    · cases h
  · cases h

/-! ## Sound rows -/

/-- The conditions of a rule, in their order. -/
structure ConditionsSound (cs : List EntryCondition) : Prop where
  typed : ∀ c ∈ cs, NotBlank c.conditionType
  finite : ∀ c ∈ cs, c.valueNumeric.all Double.isFinite = true
  ordered : cs.Pairwise fun c d => c.sortOrder < d.sortOrder

/-- A rule that covers a watchlist names its symbols. -/
structure Opportunity.Sound (o : Opportunity) : Prop where
  named : NotBlank o.name
  covers : o.scopeType = some .watchlistStk → o.symbols ≠ []
  symbols : ∀ s ∈ o.symbols, NotBlank s
  conditions : ConditionsSound o.entryConditions

/-- What the writers keep of an allocation. -/
structure Allocation.Sound (a : Allocation) : Prop where
  named : NotBlank a.name
  maxPositions : ∀ n ∈ a.maxPositions, 0 ≤ n
  maxBpPct : ∀ x ∈ a.maxBpPct, LimitNumber x

/-- What the writers keep of a trade. -/
structure Trade.Sound (x : Trade) : Prop where
  account : NotBlank x.accountId
  label : ∀ s ∈ x.label, NotBlank s

/-- Tags are different, not blank, and within the bounds. -/
structure TagsSound (tags : List String) : Prop where
  nodup : tags.Nodup
  count : tags.length ≤ tagMax
  each : ∀ tag ∈ tags, NotBlank tag ∧ tag.toList.length ≤ tagLenMax

/-- What the writers keep of a review. -/
structure Review.Sound (r : Review) : Prop where
  added : TagsSound r.tagsAdded
  dropped : TagsSound r.tagsDropped

/-- No two opportunities of an allocation stand at one place. -/
def OrdersApart (memberships : List Membership) : Prop :=
  ∀ x ∈ memberships, ∀ y ∈ memberships, x.allocationId = y.allocationId →
    x.sortOrder = y.sortOrder → x = y

/-- What the writers keep true of the tables. -/
structure RuleTables.Sound (t : RuleTables) : Prop where
  opportunities : ∀ o ∈ t.opportunities.rows, o.Sound
  allocations : ∀ a ∈ t.allocations.rows, a.Sound
  memberships : OrdersApart t.memberships.rows
  trades : ∀ x ∈ t.trades.rows, x.Sound
  reviews : ∀ r ∈ t.reviews.rows, r.Sound

end Strategy
