import BifrostTrade.Lib.FifoMatching
import Mathlib.Algebra.Order.BigOperators.Group.List

/-!
# Which lots meet

First-in first-out matching does not depend on how the buys and the sells of a list are
interleaved: lay the buys in a row by quantity and the sells in a row below it, and the pairs are
the lots that lie over each other (`queueFifo_buyFirst`).  Where all quantities are multiples of a
step above the tolerance, these are the lots whose stretches of the row overlap
(`mem_sideBySide_iff`).
-/

namespace FifoMatching

variable {α K : Type*}

/-! ## Rows of lots -/

section Rows

variable [LinearOrder K]

/-- A row with what is left of a lot in front, when that is more than `eps`. -/
def keep (eps : K) (a : α) (r : K) (as : List (α × K)) : List (α × K) :=
  if eps < r then (a, r) :: as else as

/-- The open lots of one side with their quantities, in the order of the list. -/
def row (eps : K) (s : Side) (lots : List (Lot α K)) : List (α × K) :=
  ((live eps lots).filter fun l => l.side = s).map fun l => (l.leg, l.remQty)

@[simp] theorem row_append (eps : K) (s : Side) (as bs : List (Lot α K)) :
    row eps s (as ++ bs) = row eps s as ++ row eps s bs := by
  simp only [row, live_append, List.filter_append, List.map_append]

theorem row_cons_of_side (eps : K) {l : Lot α K} {s : Side} (hs : l.side = s)
    (lots : List (Lot α K)) :
    row eps s (l :: lots) = keep eps l.leg l.remQty (row eps s lots) := by
  by_cases h : eps < l.remQty
  · rw [row, live_cons_of_live h, List.filter_cons_of_pos (by simpa using hs), keep, if_pos h]
    rfl
  · rw [row, live_cons_of_dead h, keep, if_neg h]
    rfl

theorem row_cons_of_ne (eps : K) {l : Lot α K} {s : Side} (hs : l.side ≠ s)
    (lots : List (Lot α K)) : row eps s (l :: lots) = row eps s lots := by
  by_cases h : eps < l.remQty
  · rw [row, live_cons_of_live h, List.filter_cons_of_neg (by simpa using hs), row]
  · rw [row, live_cons_of_dead h, row]

/-- A list of one side has nothing in the row of the other. -/
theorem row_eq_nil {eps : K} {s t : Side} (h : s ≠ t) {lots : List (Lot α K)}
    (hon : OnSide s lots) : row eps t lots = [] := by
  induction lots with
  | nil => rfl
  | cons l lots ih =>
    have hl : l.side ≠ t := by rw [hon l (List.mem_cons_self ..)]; exact h
    rw [row_cons_of_ne eps hl]
    exact ih fun x hx => hon x (List.mem_cons_of_mem _ hx)

/-- Only the live lots count. -/
theorem live_live_append (eps : K) (as bs : List (Lot α K)) :
    live eps (live eps as ++ bs) = live eps (as ++ bs) := by
  simp only [live, List.filter_append, List.filter_filter, Bool.and_self]

theorem row_live_append (eps : K) (s : Side) (as bs : List (Lot α K)) :
    row eps s (live eps as ++ bs) = row eps s (as ++ bs) := by
  rw [row, live_live_append, row]

end Rows

/-! ## The rows laid side by side -/

section Alignment

variable [Field K] [LinearOrder K]

/-- The lots that lie over each other, in order, when two rows of quantities are laid out from one
end.  What is left of a lot goes on as long as it is more than `eps`. -/
def sideBySide (eps : K) : List (α × K) → List (α × K) → List (α × α)
  | (a, p) :: as, (b, q) :: bs =>
      (a, b) ::
        if eps < p - q then sideBySide eps ((a, p - q) :: as) bs
        else if eps < q - p then sideBySide eps as ((b, q - p) :: bs)
        else sideBySide eps as bs
  | [], _ => []
  | _ :: _, [] => []
termination_by as bs => as.length + bs.length

@[simp] theorem sideBySide_nil_left (eps : K) (bs : List (α × K)) :
    sideBySide eps [] bs = [] := by
  rw [sideBySide]

@[simp] theorem sideBySide_nil_right (eps : K) (as : List (α × K)) :
    sideBySide eps as [] = [] := by
  cases as <;> rw [sideBySide]

/-- The bought leg of a pair and the sold one. -/
def Match.buyFirst (m : Match α K) : α × α :=
  match m.openingSide with
  | .buy => (m.opening, m.closing)
  | .sell => (m.closing, m.opening)

variable [IsStrictOrderedRing K] {eps : K}

/-- The two lots in front meet, and what they have in common is taken off both. -/
theorem sideBySide_cons (heps : 0 ≤ eps) (a b : α) (p q : K) (as bs : List (α × K)) :
    sideBySide eps ((a, p) :: as) ((b, q) :: bs) =
      (a, b) :: sideBySide eps (keep eps a (p - min p q) as) (keep eps b (q - min p q) bs) := by
  rw [sideBySide]
  rcases le_total p q with h | h
  · have hp : ¬ eps < p - q := not_lt.2 ((sub_nonpos.2 h).trans heps)
    rw [min_eq_left h, sub_self, if_neg hp]
    simp only [keep, not_lt.2 heps, if_false]
    split_ifs <;> rfl
  · have hq : ¬ eps < q - p := not_lt.2 ((sub_nonpos.2 h).trans heps)
    rw [min_eq_right h, sub_self, if_neg hq]
    simp only [keep, not_lt.2 heps, if_false]
    split_ifs <;> rfl

/-- The rows of an open queue and of the fills, when the first fill meets the oldest lot. -/
theorem sideBySide_round (heps : 0 ≤ eps) {o w : Lot α K} (ho : eps < o.remQty)
    (hw : eps < w.remQty) (hside : o.side ≠ w.side) {rest : List (Lot α K)}
    (hrest : OnSide o.side rest) (ws : List (Lot α K)) :
    sideBySide eps (row eps .buy (o :: rest ++ w :: ws)) (row eps .sell (o :: rest ++ w :: ws)) =
      (Match.ofLots o w).buyFirst ::
        sideBySide eps (row eps .buy (openRest o w :: rest ++ fillRest o w :: ws))
          (row eps .sell (openRest o w :: rest ++ fillRest o w :: ws)) := by
  have hopen : (openRest o w).remQty = o.remQty - min w.remQty o.remQty := rfl
  have hfill : (fillRest o w).remQty = w.remQty - min w.remQty o.remQty := rfl
  have hkeep : ∀ (l : Lot α K) (as : List (α × K)), eps < l.remQty →
      keep eps l.leg l.remQty as = (l.leg, l.remQty) :: as := fun l as h => if_pos h
  rcases hos : o.side with _ | _ <;> rcases hws : w.side with _ | _
  · exact absurd (hos.trans hws.symm) hside
  · have hnil : row eps .sell rest = [] := row_eq_nil (by decide) (hos ▸ hrest)
    have hfirst : (Match.ofLots o w).buyFirst = (o.leg, w.leg) := by
      simp only [Match.buyFirst, Match.ofLots, hos]
    simp only [List.cons_append, row_append, row_cons_of_side, row_cons_of_ne, openRest_side,
      fillRest_side, openRest_leg, fillRest_leg, hos, hws, ne_eq, reduceCtorEq, not_false_eq_true,
      hnil, List.nil_append, hkeep o _ ho, hkeep w _ hw, hopen, hfill, hfirst]
    rw [sideBySide_cons heps, min_comm]
  · have hnil : row eps .buy rest = [] := row_eq_nil (by decide) (hos ▸ hrest)
    have hfirst : (Match.ofLots o w).buyFirst = (w.leg, o.leg) := by
      simp only [Match.buyFirst, Match.ofLots, hos]
    simp only [List.cons_append, row_append, row_cons_of_side, row_cons_of_ne, openRest_side,
      fillRest_side, openRest_leg, fillRest_leg, hos, hws, ne_eq, reduceCtorEq, not_false_eq_true,
      hnil, List.nil_append, hkeep o _ ho, hkeep w _ hw, hopen, hfill, hfirst]
    rw [sideBySide_cons heps]
  · exact absurd (hos.trans hws.symm) hside

/-- The pairs of the queue are the lots that lie over each other. -/
theorem queueFifo_buyFirst (heps : 0 ≤ eps) {queue : List (Lot α K)} (hq : IsOpen eps queue)
    (ws : List (Lot α K)) :
    (queueFifo eps queue ws).1.map Match.buyFirst =
      sideBySide eps (row eps .buy (queue ++ ws)) (row eps .sell (queue ++ ws)) := by
  -- on the number of live lots, which every pair makes smaller, and then on the fills
  induction hn : (live eps (queue ++ ws)).length using Nat.strong_induction_on
    generalizing queue ws with
  | _ n ihn =>
    subst hn
    induction ws generalizing queue with
    | nil =>
      obtain ⟨-, s, hs⟩ := hq
      rw [List.append_nil]
      cases s with
      | buy => rw [row_eq_nil (s := .buy) (t := .sell) (by decide) hs, sideBySide_nil_right]; rfl
      | sell => rw [row_eq_nil (s := .sell) (t := .buy) (by decide) hs, sideBySide_nil_left]; rfl
    | cons w ws ihw =>
      by_cases hw : eps < w.remQty
      · by_cases hside : OnSide w.side queue
        · -- the fill joins the queue, and the rows stay as they are
          have hstep : queueFifo eps queue (w :: ws) = queueFifo eps (queue ++ [w]) ws := by
            rw [queueFifo, consume_of_onSide hw hside]
            rfl
          have hq' : IsOpen eps (queue ++ [w]) := by
            have := hq.consume w
            rwa [consume_of_onSide hw hside] at this
          have hassoc : queue ++ w :: ws = queue ++ [w] ++ ws := by simp
          rw [hstep, hassoc]
          rw [hassoc] at ihn
          exact ihw hq' ihn
        · -- the fill meets the oldest lot, which is in front of the other row
          cases queue with
          | nil => exact absurd (fun l hl => absurd hl List.not_mem_nil) hside
          | cons o rest =>
            have ho : eps < o.remQty := hq.isLive o (List.mem_cons_self ..)
            have hrest : OnSide o.side rest :=
              fun l hl => hq.onSide l (List.mem_cons_of_mem _ hl)
            have hows : o.side ≠ w.side := fun h => hside (h ▸ hq.onSide)
            have hopen : IsOpen eps (live eps [openRest o w] ++ rest) := by
              by_cases h : eps < (openRest o w).remQty
              · rw [live_cons_of_live h, live_nil, List.singleton_append]
                exact hq.cons_of_side (openRest_side o w) h
              · rw [live_cons_of_dead h, live_nil, List.nil_append]
                exact hq.tail
            have hfront : live eps [openRest o w] ++ rest ++ fillRest o w :: ws =
                live eps [openRest o w] ++ (rest ++ fillRest o w :: ws) := List.append_assoc ..
            have hlen : (live eps (live eps [openRest o w] ++ rest ++ fillRest o w :: ws)).length <
                (live eps (o :: rest ++ w :: ws)).length := by
              rw [hfront, live_live_append]
              exact length_live_round_lt heps ho hw [] rest ws
            rw [queueFifo_round heps hw hows, List.map_cons,
              ihn _ hlen hopen (fillRest o w :: ws) rfl,
              sideBySide_round heps ho hw hows hrest, hfront, row_live_append, row_live_append]
            rfl
      · -- a closed fill is in neither row
        have hstep : queueFifo eps queue (w :: ws) = queueFifo eps queue ws := by
          rw [queueFifo, consume_of_dead (not_lt.1 hw)]
          rfl
        have hlive : live eps (queue ++ w :: ws) = live eps (queue ++ ws) := by
          rw [live_append, live_cons_of_dead hw, live_append]
        rw [hlive] at ihn
        rw [hstep, row, row, hlive]
        exact ihw hq ihn

/-- All pairs are in a symmetric relation exactly when the lots that lie over each other are. -/
theorem queueFifo_forall_iff (heps : 0 ≤ eps) {R : α → α → Prop} (hR : ∀ a b, R a b ↔ R b a)
    (ws : List (Lot α K)) :
    (∀ m ∈ (queueFifo eps [] ws).1, R m.opening m.closing) ↔
      ∀ ab ∈ sideBySide eps (row eps .buy ws) (row eps .sell ws), R ab.1 ab.2 := by
  have hfirst : ∀ m : Match α K, R m.opening m.closing ↔ R m.buyFirst.1 m.buyFirst.2 := by
    intro m
    cases hs : m.openingSide with
    | buy => rw [Match.buyFirst, hs]
    | sell =>
      rw [Match.buyFirst, hs]
      exact hR _ _
  have hpairs := queueFifo_buyFirst heps (.nil) ws
  rw [List.nil_append] at hpairs
  rw [← hpairs, List.forall_mem_map]
  exact forall₂_congr fun m _ => hfirst m

end Alignment

/-! ## Stretches that overlap -/

section Overlap

variable [Field K]

/-- The length of a row. -/
def total (as : List (α × K)) : K := (as.map Prod.snd).sum

@[simp] theorem total_nil : total ([] : List (α × K)) = 0 := rfl

@[simp] theorem total_cons (x : α × K) (as : List (α × K)) : total (x :: as) = x.2 + total as :=
  List.sum_cons

variable [LinearOrder K]

/-- The stretch of `a` in the one row and that of `b` in the other have a part in common. -/
def Overlap (as bs : List (α × K)) (a b : α) : Prop :=
  ∃ as₁ p as₂ bs₁ q bs₂, as = as₁ ++ (a, p) :: as₂ ∧ bs = bs₁ ++ (b, q) :: bs₂ ∧
    total as₁ < total bs₁ + q ∧ total bs₁ < total as₁ + p

theorem overlap_comm {as bs : List (α × K)} {a b : α} : Overlap as bs a b ↔ Overlap bs as b a := by
  constructor <;>
  · rintro ⟨as₁, p, as₂, bs₁, q, bs₂, ha, hb, h, h'⟩
    exact ⟨bs₁, q, bs₂, as₁, p, as₂, hb, ha, h', h⟩

/-- Every lot of the row has something in it. -/
def Positive (as : List (α × K)) : Prop := ∀ x ∈ as, 0 < x.2

theorem not_overlap_nil {bs : List (α × K)} {a b : α} : ¬ Overlap [] bs a b := by
  rintro ⟨as₁, p, as₂, -, -, -, ha, -⟩
  exact absurd ha.symm (List.append_ne_nil_of_right_ne_nil _ (List.cons_ne_nil _ _))

/-- Every lot of the row holds a whole number of steps, at least one. -/
def OnStep (step : K) (as : List (α × K)) : Prop := ∀ x ∈ as, 0 < x.2 ∧ ∃ k : ℤ, x.2 = k * step

theorem OnStep.positive {step : K} {as : List (α × K)} (h : OnStep step as) : Positive as :=
  fun x hx => (h x hx).1

theorem OnStep.tail {step : K} {x : α × K} {as : List (α × K)} (h : OnStep step (x :: as)) :
    OnStep step as :=
  fun y hy => h y (List.mem_cons_of_mem _ hy)

/-- What is left of a longer lot is on the step again. -/
theorem OnStep.sub {step : K} {a b : α} {p q : K} {as bs : List (α × K)}
    (ha : OnStep step ((a, p) :: as)) (hb : OnStep step ((b, q) :: bs)) (h : 0 < p - q) :
    OnStep step ((a, p - q) :: as) := by
  obtain ⟨-, k, hk⟩ := ha (a, p) (List.mem_cons_self ..)
  obtain ⟨-, n, hn⟩ := hb (b, q) (List.mem_cons_self ..)
  intro x hx
  rcases List.mem_cons.1 hx with rfl | hx
  · refine ⟨h, k - n, ?_⟩
    simp only at hk hn ⊢
    rw [hk, hn]
    push_cast
    ring
  · exact ha x (List.mem_cons_of_mem _ hx)

variable [IsStrictOrderedRing K]

theorem Positive.total_nonneg {as : List (α × K)} (h : Positive as) : 0 ≤ total as := by
  refine List.sum_nonneg fun r hr => ?_
  obtain ⟨x, hx, rfl⟩ := List.mem_map.1 hr
  exact (h x hx).le

/-- The first lots overlap; behind the shorter of them the rest is compared with what is left of
the longer. -/
theorem overlap_cons_of_lt {a b x y : α} {p q : K} {as bs : List (α × K)} (hq : 0 < q)
    (hqp : q < p) (has : Positive as) (hbs : Positive bs) :
    Overlap ((a, p) :: as) ((b, q) :: bs) x y ↔
      x = a ∧ y = b ∨ Overlap ((a, p - q) :: as) bs x y := by
  constructor
  · rintro ⟨as₁, p', as₂, bs₁, q', bs₂, ha, hb, h, h'⟩
    rcases List.cons_eq_append_iff.1 ha with ⟨rfl, ha⟩ | ⟨as₁, rfl, rfl⟩ <;>
      rcases List.cons_eq_append_iff.1 hb with ⟨rfl, hb⟩ | ⟨bs₁, rfl, rfl⟩
    · cases ha
      cases hb
      exact Or.inl ⟨rfl, rfl⟩
    · cases ha
      have hq' : 0 < q' := hbs (y, q') (by simp)
      have h0 : 0 ≤ total bs₁ := Positive.total_nonneg fun z hz => hbs z (by simp [hz])
      simp only [total_nil, total_cons] at h h'
      exact Or.inr ⟨[], p - q, as, bs₁, q', bs₂, rfl, rfl, by simp only [total_nil]; linarith,
        by simp only [total_nil]; linarith⟩
    · cases hb
      have h0 : 0 ≤ total as₁ := Positive.total_nonneg fun z hz => has z (by simp [hz])
      simp only [total_nil, total_cons] at h h'
      linarith
    · simp only [total_cons] at h h'
      exact Or.inr ⟨(a, p - q) :: as₁, p', as₂, bs₁, q', bs₂, rfl, rfl,
        by simp only [total_cons]; linarith, by simp only [total_cons]; linarith⟩
  · rintro (⟨rfl, rfl⟩ | ⟨as₁, p', as₂, bs₁, q', bs₂, ha, rfl, h, h'⟩)
    · exact ⟨[], p, as, [], q, bs, rfl, rfl, by simpa using hq, by simpa using hq.trans hqp⟩
    · rcases List.cons_eq_append_iff.1 ha with ⟨rfl, ha⟩ | ⟨as₁, rfl, rfl⟩
      · cases ha
        simp only [total_nil] at h h'
        exact ⟨[], p, as, (b, q) :: bs₁, q', bs₂, rfl, rfl,
          by simp only [total_nil, total_cons]; linarith,
          by simp only [total_nil, total_cons]; linarith⟩
      · simp only [total_cons] at h h'
        exact ⟨(a, p) :: as₁, p', as₂, (b, q) :: bs₁, q', bs₂, rfl, rfl,
          by simp only [total_cons]; linarith, by simp only [total_cons]; linarith⟩

/-- First lots of one length overlap, and the rest starts afresh. -/
theorem overlap_cons_of_eq {a b x y : α} {p : K} {as bs : List (α × K)} (hp : 0 < p)
    (has : Positive as) (hbs : Positive bs) :
    Overlap ((a, p) :: as) ((b, p) :: bs) x y ↔ x = a ∧ y = b ∨ Overlap as bs x y := by
  constructor
  · rintro ⟨as₁, p', as₂, bs₁, q', bs₂, ha, hb, h, h'⟩
    rcases List.cons_eq_append_iff.1 ha with ⟨rfl, ha⟩ | ⟨as₁, rfl, rfl⟩ <;>
      rcases List.cons_eq_append_iff.1 hb with ⟨rfl, hb⟩ | ⟨bs₁, rfl, rfl⟩
    · cases ha
      cases hb
      exact Or.inl ⟨rfl, rfl⟩
    · cases ha
      have h0 : 0 ≤ total bs₁ := Positive.total_nonneg fun z hz => hbs z (by simp [hz])
      simp only [total_nil, total_cons] at h h'
      linarith
    · cases hb
      have h0 : 0 ≤ total as₁ := Positive.total_nonneg fun z hz => has z (by simp [hz])
      simp only [total_nil, total_cons] at h h'
      linarith
    · simp only [total_cons] at h h'
      exact Or.inr ⟨as₁, p', as₂, bs₁, q', bs₂, rfl, rfl, by linarith, by linarith⟩
  · rintro (⟨rfl, rfl⟩ | ⟨as₁, p', as₂, bs₁, q', bs₂, rfl, rfl, h, h'⟩)
    · exact ⟨[], p, as, [], p, bs, rfl, rfl, by simpa using hp, by simpa using hp⟩
    · exact ⟨(a, p) :: as₁, p', as₂, (b, p) :: bs₁, q', bs₂, rfl, rfl,
        by simp only [total_cons]; linarith, by simp only [total_cons]; linarith⟩

/-! ### Quantities on a step -/

/-- Whole numbers of steps that differ differ by more than a tolerance below the step. -/
theorem OnStep.eps_lt {step eps : K} (hstep : eps < step) {a b : α} {p q : K}
    {as bs : List (α × K)} (ha : OnStep step ((a, p) :: as)) (hb : OnStep step ((b, q) :: bs))
    (hlt : q < p) (heps : 0 ≤ eps) : eps < p - q := by
  obtain ⟨-, k, hk⟩ := ha (a, p) (List.mem_cons_self ..)
  obtain ⟨-, n, hn⟩ := hb (b, q) (List.mem_cons_self ..)
  simp only at hk hn
  have hstep0 : 0 < step := heps.trans_lt hstep
  have hlt' : (n : K) * step < k * step := by rwa [← hk, ← hn]
  have hnk : n < k := by exact_mod_cast lt_of_mul_lt_mul_right hlt' hstep0.le
  have hone : (1 : K) ≤ (k : K) - n := by
    have : (1 : ℤ) ≤ k - n := by omega
    exact_mod_cast this
  calc eps < 1 * step := by rwa [one_mul]
    _ ≤ ((k : K) - n) * step := mul_le_mul_of_nonneg_right hone hstep0.le
    _ = p - q := by rw [hk, hn, sub_mul]

/-- On a step above the tolerance, the lots that lie over each other are those whose stretches
overlap. -/
theorem mem_sideBySide_iff {step eps : K} (heps : 0 ≤ eps) (hstep : eps < step)
    {as bs : List (α × K)} (ha : OnStep step as) (hb : OnStep step bs) {x y : α} :
    (x, y) ∈ sideBySide eps as bs ↔ Overlap as bs x y := by
  -- on the two rows together, along the recursion of the layout
  fun_induction sideBySide eps as bs with
  | case1 a p as b q bs iha ihb ih =>
    have hp : 0 < p := ha.positive (a, p) (List.mem_cons_self ..)
    have hq : 0 < q := hb.positive (b, q) (List.mem_cons_self ..)
    rw [List.mem_cons, Prod.mk.injEq]
    rcases lt_trichotomy p q with h | rfl | h
    · have hlt := hb.eps_lt hstep ha h heps
      rw [if_neg (by linarith), if_pos hlt, ihb ha.tail (hb.sub ha (sub_pos.2 h)),
        @overlap_comm _ _ _ _ ((a, p) :: as),
        overlap_cons_of_lt hp h hb.tail.positive ha.tail.positive, and_comm, overlap_comm]
    · have heq : ¬ eps < p - p := by rw [sub_self]; exact not_lt.2 heps
      rw [if_neg heq, if_neg heq, ih ha.tail hb.tail,
        overlap_cons_of_eq hp ha.tail.positive hb.tail.positive]
    · have hlt := ha.eps_lt hstep hb h heps
      rw [if_pos hlt, iha (ha.sub hb (sub_pos.2 h)) hb.tail,
        overlap_cons_of_lt hq h ha.tail.positive hb.tail.positive]
  | case2 bs => exact iff_of_false List.not_mem_nil not_overlap_nil
  | case3 a as =>
    rw [overlap_comm]
    exact iff_of_false List.not_mem_nil not_overlap_nil

end Overlap

end FifoMatching
