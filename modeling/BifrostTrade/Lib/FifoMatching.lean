import Mathlib.Algebra.BigOperators.Group.List.Basic
import Mathlib.Algebra.Order.Field.Basic
import Mathlib.Data.List.Forall2
import Mathlib.Tactic.FieldSimp
import Mathlib.Tactic.LinearCombination
import Mathlib.Tactic.Linarith
import Mathlib.Tactic.Ring

/-!
# First-in first-out matching

Two ways to match buys with sells first in, first out.  `queueFifo` makes one pass and keeps the
open lots in a queue; `restartLoop` scans the whole list for the first fill that meets an open lot
of the other side, takes the matched quantity off both and starts again.  A lot whose remainder is
at most `eps` counts as closed in both, and the commission of a lot is shared out in proportion to
the quantity.  The two agree (`restartLoop_eq_queueFifo`), and no lot is used for more than it
holds (`Lot.Shrunk`).
-/

namespace FifoMatching

/-- The side of a lot. -/
inductive Side where
  | buy
  | sell
  deriving DecidableEq, Repr

/-- What is left of a fill. -/
structure Lot (α K : Type*) where
  leg : α
  side : Side
  remQty : K
  remComm : K
  deriving DecidableEq, Repr

/-- One pair: the earlier leg opens, the later leg closes. -/
structure Match (α K : Type*) where
  opening : α
  openingSide : Side
  closing : α
  closingSide : Side
  qty : K
  openingComm : K
  closingComm : K
  deriving DecidableEq, Repr

variable {α β K : Type*}

namespace Lot

variable [Field K]

/-- The commission that goes with `q` of the remainder. -/
def share (l : Lot α K) (q : K) : K := q / l.remQty * l.remComm

/-- The lot after `q` of it is matched. -/
def take (l : Lot α K) (q : K) : Lot α K :=
  { l with remQty := l.remQty - q, remComm := l.remComm - l.share q }

@[simp] theorem take_leg (l : Lot α K) (q : K) : (l.take q).leg = l.leg := rfl

@[simp] theorem take_side (l : Lot α K) (q : K) : (l.take q).side = l.side := rfl

@[simp] theorem take_remQty (l : Lot α K) (q : K) : (l.take q).remQty = l.remQty - q := rfl

end Lot

section Algorithms

variable [Field K] [LinearOrder K]

/-- The pair of an open lot and a fill of the other side. -/
def Match.ofLots (o w : Lot α K) : Match α K :=
  let q := min w.remQty o.remQty
  { opening := o.leg
    openingSide := o.side
    closing := w.leg
    closingSide := w.side
    qty := q
    openingComm := o.share q
    closingComm := w.share q }

/-- What is left of the open lot. -/
def openRest (o w : Lot α K) : Lot α K := o.take (min w.remQty o.remQty)

/-- What is left of the fill. -/
def fillRest (o w : Lot α K) : Lot α K := w.take (min w.remQty o.remQty)

@[simp] theorem openRest_side (o w : Lot α K) : (openRest o w).side = o.side := rfl

@[simp] theorem fillRest_side (o w : Lot α K) : (fillRest o w).side = w.side := rfl

@[simp] theorem openRest_leg (o w : Lot α K) : (openRest o w).leg = o.leg := rfl

@[simp] theorem fillRest_leg (o w : Lot α K) : (fillRest o w).leg = w.leg := rfl

/-! ## One pass with a queue -/

/-- A fill closes the oldest open lots of the other side and opens with what is left. -/
def consume (eps : K) : List (Lot α K) → Lot α K → List (Match α K) × List (Lot α K)
  | [], w => ([], if eps < w.remQty then [w] else [])
  | o :: rest, w =>
      if w.remQty ≤ eps then ([], o :: rest)
      else if o.side = w.side then ([], o :: rest ++ [w])
      else if eps < (openRest o w).remQty then ([Match.ofLots o w], openRest o w :: rest)
      else
        let next := consume eps rest (fillRest o w)
        (Match.ofLots o w :: next.1, next.2)

/-- The queue of one side against arrivals of the other: what is matched, and what is left. -/
def queueFifo (eps : K) : List (Lot α K) → List (Lot α K) → List (Match α K) × List (Lot α K)
  | queue, [] => ([], queue)
  | queue, w :: ws =>
      let now := consume eps queue w
      let later := queueFifo eps now.2 ws
      (now.1 ++ later.1, later.2)

/-! ## Restart and scan -/

/-- The first fill that meets an open lot of the other side, with that lot: both come with their
places in the list. -/
def scan (eps : K) : ℕ → List (Lot α K) → List (ℕ × Lot α K) → List (ℕ × Lot α K) →
    Option ((ℕ × Lot α K) × (ℕ × Lot α K))
  | _, [], _, _ => none
  | i, w :: work, buyQ, sellQ =>
      if w.remQty ≤ eps then scan eps (i + 1) work buyQ sellQ
      else match w.side with
        | .buy => match sellQ with
          | s :: _ =>
              if min w.remQty s.2.remQty ≤ eps then
                scan eps (i + 1) work (buyQ ++ [(i, w)]) sellQ
              else some (s, (i, w))
          | [] => scan eps (i + 1) work (buyQ ++ [(i, w)]) sellQ
        | .sell => match buyQ with
          | b :: _ =>
              if min w.remQty b.2.remQty ≤ eps then
                scan eps (i + 1) work buyQ (sellQ ++ [(i, w)])
              else some (b, (i, w))
          | [] => scan eps (i + 1) work buyQ (sellQ ++ [(i, w)])

/-- One pair a round; `none` when the rounds allowed are used up. -/
def restartLoop (eps : K) : ℕ → List (Lot α K) → Option (List (Match α K) × List (Lot α K))
  | 0, _ => none
  | n + 1, work =>
      match scan eps 0 work [] [] with
      | none => some ([], work)
      | some ((i, o), (j, w)) =>
          (restartLoop eps n ((work.set i (openRest o w)).set j (fillRest o w))).map
            fun r => (Match.ofLots o w :: r.1, r.2)

end Algorithms

/-! ## Live lots -/

section Scan

variable [LinearOrder K]

/-- The lots that still count as open. -/
def live (eps : K) (lots : List (Lot α K)) : List (Lot α K) :=
  lots.filter fun l => eps < l.remQty

/-- Every lot is on side `s`. -/
def OnSide (s : Side) (lots : List (Lot α K)) : Prop := ∀ l ∈ lots, l.side = s

@[simp] theorem live_nil (eps : K) : live eps ([] : List (Lot α K)) = [] := rfl

@[simp] theorem live_append (eps : K) (as bs : List (Lot α K)) :
    live eps (as ++ bs) = live eps as ++ live eps bs := List.filter_append ..

theorem live_cons_of_live {eps : K} {l : Lot α K} (h : eps < l.remQty) (lots : List (Lot α K)) :
    live eps (l :: lots) = l :: live eps lots :=
  List.filter_cons_of_pos (by simpa using h)

theorem live_cons_of_dead {eps : K} {l : Lot α K} (h : ¬ eps < l.remQty)
    (lots : List (Lot α K)) : live eps (l :: lots) = live eps lots :=
  List.filter_cons_of_neg (by simpa using h)

theorem length_live_cons_le (eps : K) {l l' : Lot α K} (h : l'.remQty ≤ l.remQty)
    (lots : List (Lot α K)) :
    (live eps (l' :: lots)).length ≤ (live eps (l :: lots)).length := by
  by_cases h' : eps < l'.remQty
  · rw [live_cons_of_live h', live_cons_of_live (h'.trans_le h)]
    exact le_rfl
  · rw [live_cons_of_dead h']
    exact ((List.sublist_cons_self l lots).filter _).length_le

theorem length_live_cons_lt {eps : K} {l l' : Lot α K} (h : eps < l.remQty) (h' : ¬ eps < l'.remQty)
    (lots : List (Lot α K)) :
    (live eps (l' :: lots)).length < (live eps (l :: lots)).length := by
  rw [live_cons_of_live h, live_cons_of_dead h']
  exact Nat.lt_succ_self _

/-- A list with a live lot, cut at the first one. -/
theorem exists_first_live {eps : K} {lots : List (Lot α K)} {o : Lot α K} {rest : List (Lot α K)}
    (h : live eps lots = o :: rest) :
    ∃ as bs, lots = as ++ o :: bs ∧ live eps as = [] ∧ eps < o.remQty ∧ live eps bs = rest := by
  obtain ⟨as, bs, hl, has, ho, hbs⟩ := List.filter_eq_cons_iff.1 h
  refine ⟨as, bs, hl, List.filter_eq_nil_iff.2 has, by simpa using ho, hbs⟩

/-- What the queue holds: live lots of one side. -/
structure IsOpen (eps : K) (queue : List (Lot α K)) : Prop where
  isLive : ∀ l ∈ queue, eps < l.remQty
  oneSided : ∃ s, OnSide s queue

theorem IsOpen.nil {eps : K} : IsOpen eps ([] : List (Lot α K)) :=
  ⟨by simp, .buy, by simp [OnSide]⟩

theorem IsOpen.tail {eps : K} {o : Lot α K} {rest : List (Lot α K)} (h : IsOpen eps (o :: rest)) :
    IsOpen eps rest := by
  obtain ⟨hlive, s, hs⟩ := h
  exact ⟨fun l hl => hlive l (List.mem_cons_of_mem _ hl), s,
    fun l hl => hs l (List.mem_cons_of_mem _ hl)⟩

/-- A lot in front of an open queue, on the side of the lot it stands for. -/
theorem IsOpen.cons_of_side {eps : K} {o o' : Lot α K} {rest : List (Lot α K)}
    (h : IsOpen eps (o :: rest))
    (hside : o'.side = o.side) (hlive : eps < o'.remQty) : IsOpen eps (o' :: rest) := by
  obtain ⟨hrest, s, hs⟩ := h
  refine ⟨fun l hl => ?_, s, fun l hl => ?_⟩
  · exact (List.mem_cons.1 hl).elim (fun e => e ▸ hlive) fun e =>
      hrest l (List.mem_cons_of_mem _ e)
  · exact (List.mem_cons.1 hl).elim (fun e => e ▸ hside.trans (hs o (List.mem_cons_self ..)))
      fun e => hs l (List.mem_cons_of_mem _ e)

theorem IsOpen.onSide {eps : K} {o : Lot α K} {rest : List (Lot α K)} (h : IsOpen eps (o :: rest)) :
    OnSide o.side (o :: rest) := by
  obtain ⟨-, s, hs⟩ := h
  rw [hs o (List.mem_cons_self ..)]
  exact hs

theorem IsOpen.filter {eps : K} {queue : List (Lot α K)} (h : IsOpen eps queue)
    (p : Lot α K → Bool) :
    IsOpen eps (queue.filter p) := by
  obtain ⟨hlive, s, hs⟩ := h
  exact ⟨fun l hl => hlive l (List.mem_of_mem_filter hl), s,
    fun l hl => hs l (List.mem_of_mem_filter hl)⟩

/-! ## The scan -/

/-- Live lots with their places. -/
def indexed (eps : K) : ℕ → List (Lot α K) → List (ℕ × Lot α K)
  | _, [] => []
  | i, l :: lots => if eps < l.remQty then (i, l) :: indexed eps (i + 1) lots
      else indexed eps (i + 1) lots

theorem indexed_eq_nil {eps : K} {lots : List (Lot α K)} (h : live eps lots = []) (i : ℕ) :
    indexed eps i lots = [] := by
  induction lots generalizing i with
  | nil => rfl
  | cons l lots ih =>
    by_cases hl : eps < l.remQty
    · rw [live_cons_of_live hl] at h
      cases h
    · rw [live_cons_of_dead hl] at h
      rw [indexed, if_neg hl, ih h]

theorem indexed_append (eps : K) (i : ℕ) (as bs : List (Lot α K)) :
    indexed eps i (as ++ bs) = indexed eps i as ++ indexed eps (i + as.length) bs := by
  induction as generalizing i with
  | nil => rfl
  | cons l as ih =>
    have hlen : i + 1 + as.length = i + (l :: as).length := by
      rw [List.length_cons]
      omega
    rw [List.cons_append, indexed, indexed, ih, hlen]
    split_ifs <;> rfl

/-- The scan with one queue in use, that of side `s`. -/
def scanSide (eps : K) (s : Side) (i : ℕ) (work : List (Lot α K)) (queue : List (ℕ × Lot α K)) :
    Option ((ℕ × Lot α K) × (ℕ × Lot α K)) :=
  match s with
  | .buy => scan eps i work queue []
  | .sell => scan eps i work [] queue

theorem scan_start (eps : K) (s : Side) (work : List (Lot α K)) :
    scan eps 0 work [] [] = scanSide eps s 0 work [] := by
  cases s <;> rfl

/-- The scan passes a stretch whose live lots are all on side `s`, and queues them. -/
theorem scanSide_append {eps : K} {s : Side} {as : List (Lot α K)}
    (h : OnSide s (live eps as)) (i : ℕ) (work : List (Lot α K)) (queue : List (ℕ × Lot α K)) :
    scanSide eps s i (as ++ work) queue =
      scanSide eps s (i + as.length) work (queue ++ indexed eps i as) := by
  induction as generalizing i queue with
  | nil => simp [indexed]
  | cons l as ih =>
    have hlen : i + 1 + as.length = i + (l :: as).length := by
      rw [List.length_cons]
      omega
    by_cases hl : eps < l.remQty
    · rw [live_cons_of_live hl] at h
      have hside : l.side = s := h l (List.mem_cons_self ..)
      have hstep : scanSide eps s i (l :: as ++ work) queue =
          scanSide eps s (i + 1) (as ++ work) (queue ++ [(i, l)]) := by
        cases s <;> simp only [scanSide, List.cons_append, scan, not_le.2 hl, hside, if_false]
      rw [hstep, ih fun x hx => h x (List.mem_cons_of_mem _ hx), hlen, indexed, if_pos hl,
        List.append_assoc, List.singleton_append]
    · rw [live_cons_of_dead hl] at h
      have hstep : scanSide eps s i (l :: as ++ work) queue =
          scanSide eps s (i + 1) (as ++ work) queue := by
        cases s <;> simp only [scanSide, List.cons_append, scan, not_lt.1 hl, if_true]
      rw [hstep, ih h, hlen, indexed, if_neg hl]

/-- No pair is left when the live lots are all on one side. -/
theorem scan_eq_none {eps : K} {s : Side} {work : List (Lot α K)} (h : OnSide s (live eps work)) :
    scan eps 0 work [] [] = none := by
  have hpass := scanSide_append h 0 [] []
  rw [List.append_nil, List.nil_append] at hpass
  rw [scan_start eps s, hpass]
  cases s <;> rfl

/-- The scan stops at the first live fill that is on the other side of the live lots before it,
with the first of these. -/
theorem scan_eq_some {eps : K} {as bs cs : List (Lot α K)} {o w : Lot α K}
    (has : live eps as = []) (ho : eps < o.remQty) (hbs : OnSide o.side (live eps bs))
    (hw : eps < w.remQty) (hside : o.side ≠ w.side) :
    scan eps 0 (as ++ o :: bs ++ w :: cs) [] [] =
      some ((as.length, o), (as.length + 1 + bs.length, w)) := by
  have hon : OnSide o.side (live eps (as ++ o :: bs)) := by
    rw [live_append, has, List.nil_append, live_cons_of_live ho]
    exact fun l hl => (List.mem_cons.1 hl).elim (fun h => h ▸ rfl) (hbs l)
  have hidx : indexed eps 0 (as ++ o :: bs) =
      (as.length, o) :: indexed eps (as.length + 1) bs := by
    rw [indexed_append, indexed_eq_nil has, List.nil_append, indexed, if_pos ho, Nat.zero_add]
  have hlen : 0 + (as ++ o :: bs).length = as.length + 1 + bs.length := by
    rw [List.length_append, List.length_cons]
    omega
  have hmin : ¬ min w.remQty o.remQty ≤ eps := not_le.2 (lt_min hw ho)
  rw [scan_start eps o.side, scanSide_append hon, List.nil_append, hidx, hlen]
  rcases ho' : o.side with _ | _ <;> rcases hw' : w.side with _ | _
  · exact absurd (ho'.trans hw'.symm) hside
  · simp only [scanSide, scan, not_le.2 hw, hw', hmin, if_false]
  · simp only [scanSide, scan, not_le.2 hw, hw', hmin, if_false]
  · exact absurd (ho'.trans hw'.symm) hside

end Scan

/-! ## Rounds -/

theorem forall₂_trans {R : α → α → Prop} (hR : ∀ a b c, R a b → R b c → R a c)
    {as bs cs : List α} (h : List.Forall₂ R as bs) (h' : List.Forall₂ R bs cs) :
    List.Forall₂ R as cs := by
  induction h generalizing cs with
  | nil => exact h'
  | cons ha _ ih =>
    cases h' with
    | cons hb ht => exact .cons (hR _ _ _ ha hb) (ih ht)

theorem set_set_append (as bs cs : List α) (x y x' y' : α) :
    ((as ++ x :: bs ++ y :: cs).set as.length x').set (as.length + 1 + bs.length) y' =
      as ++ x' :: bs ++ y' :: cs := by
  have h : as.length + 1 + bs.length = (as ++ x' :: bs).length := by
    rw [List.length_append, List.length_cons]
    omega
  have h1 : (as ++ x :: bs ++ y :: cs).set as.length x' = as ++ x' :: bs ++ y :: cs := by simp
  rw [h1, h]
  simp

section Rounds

variable [Field K] [LinearOrder K] {eps : K}

theorem live_round {as : List (Lot α K)} (has : live eps as = []) (o w : Lot α K)
    (bs : List (Lot α K)) :
    live eps (as ++ openRest o w :: bs) = live eps [openRest o w] ++ live eps bs := by
  rw [live_append, has, List.nil_append, ← live_append, List.singleton_append]

theorem onSide_openRest {o w : Lot α K} {rest : List (Lot α K)} (hrest : OnSide o.side rest) :
    OnSide o.side (live eps [openRest o w] ++ rest) := by
  intro l hl
  rw [List.mem_append] at hl
  refine hl.elim (fun h => ?_) (hrest l)
  rw [List.mem_singleton.1 (List.mem_of_mem_filter h), openRest_side]

/-- One round, on a list cut where the scan stops. -/
theorem restartLoop_round {as bs cs : List (Lot α K)} {o w : Lot α K}
    (has : live eps as = []) (ho : eps < o.remQty) (hbs : OnSide o.side (live eps bs))
    (hw : eps < w.remQty) (hside : o.side ≠ w.side) (n : ℕ) :
    restartLoop eps (n + 1) (as ++ o :: bs ++ w :: cs) =
      (restartLoop eps n (as ++ openRest o w :: bs ++ fillRest o w :: cs)).map
        fun r => (Match.ofLots o w :: r.1, r.2) := by
  rw [restartLoop, scan_eq_some has ho hbs hw hside]
  dsimp only
  rw [set_set_append]

theorem consume_of_dead {w : Lot α K} (hw : w.remQty ≤ eps) (queue : List (Lot α K)) :
    consume eps queue w = ([], queue) := by
  cases queue with
  | nil => rw [consume, if_neg (not_lt.2 hw)]
  | cons o rest => rw [consume, if_pos hw]

theorem consume_of_onSide {w : Lot α K} (hw : eps < w.remQty) {queue : List (Lot α K)}
    (h : OnSide w.side queue) : consume eps queue w = ([], queue ++ [w]) := by
  cases queue with
  | nil => rw [consume, if_pos hw, List.nil_append]
  | cons o rest => rw [consume, if_neg (not_le.2 hw), if_pos (h o (List.mem_cons_self ..))]

variable [IsStrictOrderedRing K]

theorem openRest_remQty_le {o w : Lot α K} (ho : 0 ≤ o.remQty) (hw : 0 ≤ w.remQty) :
    (openRest o w).remQty ≤ o.remQty :=
  sub_le_self _ (le_min hw ho)

theorem fillRest_remQty_le {o w : Lot α K} (ho : 0 ≤ o.remQty) (hw : 0 ≤ w.remQty) :
    (fillRest o w).remQty ≤ w.remQty :=
  sub_le_self _ (le_min hw ho)

/-- A pair uses up one of its two lots. -/
theorem not_live_both (heps : 0 ≤ eps) (o w : Lot α K) :
    ¬ eps < (openRest o w).remQty ∨ ¬ eps < (fillRest o w).remQty := by
  simp only [openRest, fillRest, Lot.take_remQty]
  rcases le_total w.remQty o.remQty with h | h
  · rw [min_eq_left h]
    exact Or.inr (by linarith)
  · rw [min_eq_right h]
    exact Or.inl (by linarith)

/-- Every round leaves fewer live lots. -/
theorem length_live_round_lt (heps : 0 ≤ eps) {o w : Lot α K} (ho : eps < o.remQty)
    (hw : eps < w.remQty) (as bs cs : List (Lot α K)) :
    (live eps (as ++ openRest o w :: bs ++ fillRest o w :: cs)).length <
      (live eps (as ++ o :: bs ++ w :: cs)).length := by
  have hole := openRest_remQty_le (heps.trans ho.le) (heps.trans hw.le)
  have hwle := fillRest_remQty_le (heps.trans ho.le) (heps.trans hw.le)
  simp only [live_append, List.length_append]
  rcases not_live_both heps o w with h | h
  · have h1 := length_live_cons_lt ho h bs
    have h2 := length_live_cons_le eps hwle cs
    omega
  · have h1 := length_live_cons_le eps hole bs
    have h2 := length_live_cons_lt hw h cs
    omega

/-- A fill that meets an open lot of the other side pairs with it and goes on with what is left. -/
theorem consume_of_opposite (heps : 0 ≤ eps) {o w : Lot α K} (hw : eps < w.remQty)
    (hside : o.side ≠ w.side) (rest : List (Lot α K)) :
    consume eps (o :: rest) w =
      (Match.ofLots o w ::
          (consume eps (live eps [openRest o w] ++ rest) (fillRest o w)).1,
        (consume eps (live eps [openRest o w] ++ rest) (fillRest o w)).2) := by
  rw [consume, if_neg (not_le.2 hw), if_neg hside]
  by_cases ho : eps < (openRest o w).remQty
  · have hdead := (not_live_both heps o w).resolve_left (not_not.2 ho)
    rw [if_pos ho, live_cons_of_live ho, live_nil, List.singleton_append,
      consume_of_dead (not_lt.1 hdead)]
  · rw [if_neg ho, live_cons_of_dead ho, live_nil, List.nil_append]

/-- The queue after one pair. -/
theorem queueFifo_round (heps : 0 ≤ eps) {o w : Lot α K} (hw : eps < w.remQty)
    (hows : o.side ≠ w.side) (rest work : List (Lot α K)) :
    queueFifo eps (o :: rest) (w :: work) =
      (Match.ofLots o w :: (queueFifo eps (live eps [openRest o w] ++ rest)
          (fillRest o w :: work)).1,
        (queueFifo eps (live eps [openRest o w] ++ rest) (fillRest o w :: work)).2) := by
  rw [queueFifo, consume_of_opposite heps hw hows, queueFifo]
  rfl

/-! ## What the rounds keep -/

/-- `l'` is the part of `l` that is left, the commission in proportion. -/
def Lot.Shrunk (l l' : Lot α K) : Prop :=
  l'.leg = l.leg ∧ l'.side = l.side ∧
    ∃ f : K, 0 ≤ f ∧ l'.remQty = f * l.remQty ∧ l'.remComm = f * l.remComm

theorem Lot.Shrunk.refl (l : Lot α K) : l.Shrunk l :=
  ⟨rfl, rfl, 1, zero_le_one, (one_mul _).symm, (one_mul _).symm⟩

theorem Lot.Shrunk.trans {l l' l'' : Lot α K} (h : l.Shrunk l') (h' : l'.Shrunk l'') :
    l.Shrunk l'' := by
  obtain ⟨hleg, hside, f, hf, hq, hc⟩ := h
  obtain ⟨hleg', hside', g, hg, hq', hc'⟩ := h'
  refine ⟨hleg'.trans hleg, hside'.trans hside, g * f, mul_nonneg hg hf, ?_, ?_⟩
  · rw [hq', hq, mul_assoc]
  · rw [hc', hc, mul_assoc]

theorem Lot.shrunk_take {l : Lot α K} {q : K} (hl : 0 < l.remQty) (hq : q ≤ l.remQty) :
    l.Shrunk (l.take q) := by
  have hne : l.remQty ≠ 0 := hl.ne'
  refine ⟨rfl, rfl, 1 - q / l.remQty, sub_nonneg.2 ((div_le_one hl).2 hq), ?_, ?_⟩
  · rw [Lot.take_remQty]
    field_simp
  · show l.remComm - q / l.remQty * l.remComm = (1 - q / l.remQty) * l.remComm
    ring

theorem forall₂_shrunk_refl (lots : List (Lot α K)) : List.Forall₂ Lot.Shrunk lots lots :=
  List.forall₂_same.2 fun l _ => Lot.Shrunk.refl l

variable [DecidableEq α]

/-- What the lots of leg `a` have left. -/
def qtyOf (a : α) (lots : List (Lot α K)) : K :=
  (lots.map fun l => if l.leg = a then l.remQty else 0).sum

/-- The commission the lots of leg `a` have left. -/
def commOf (a : α) (lots : List (Lot α K)) : K :=
  (lots.map fun l => if l.leg = a then l.remComm else 0).sum

/-- The quantity of leg `a` that the pairs use. -/
def matchedQty (a : α) (ms : List (Match α K)) : K :=
  (ms.map fun m => (if m.opening = a then m.qty else 0) + if m.closing = a then m.qty else 0).sum

/-- The commission of leg `a` that the pairs use. -/
def matchedComm (a : α) (ms : List (Match α K)) : K :=
  (ms.map fun m => (if m.opening = a then m.openingComm else 0) +
    if m.closing = a then m.closingComm else 0).sum

/-- The pairs `ms` account for the difference between the lots `work` and `final`. -/
structure Settled (work : List (Lot α K)) (ms : List (Match α K)) (final : List (Lot α K)) :
    Prop where
  shrunk : List.Forall₂ Lot.Shrunk work final
  qty : ∀ a, qtyOf a final + matchedQty a ms = qtyOf a work
  comm : ∀ a, commOf a final + matchedComm a ms = commOf a work

theorem Settled.refl (work : List (Lot α K)) : Settled work [] work where
  shrunk := forall₂_shrunk_refl work
  qty a := by simp [matchedQty]
  comm a := by simp [matchedComm]

theorem Settled.trans {work mid final : List (Lot α K)} {ms ms' : List (Match α K)}
    (h : Settled work ms mid) (h' : Settled mid ms' final) : Settled work (ms ++ ms') final where
  shrunk := forall₂_trans (fun _ _ _ h1 h2 => h1.trans h2) h.shrunk h'.shrunk
  qty a := by
    have h1 := h.qty a
    have h2 := h'.qty a
    simp only [matchedQty, List.map_append, List.sum_append] at h1 h2 ⊢
    linear_combination h1 + h2
  comm a := by
    have h1 := h.comm a
    have h2 := h'.comm a
    simp only [matchedComm, List.map_append, List.sum_append] at h1 h2 ⊢
    linear_combination h1 + h2

theorem settled_round {o w : Lot α K} (ho : 0 < o.remQty) (hw : 0 < w.remQty)
    (as bs cs : List (Lot α K)) :
    Settled (as ++ o :: bs ++ w :: cs) [Match.ofLots o w]
      (as ++ openRest o w :: bs ++ fillRest o w :: cs) where
  shrunk := by
    refine List.rel_append (List.rel_append (forall₂_shrunk_refl as) ?_) ?_
    · exact .cons (Lot.shrunk_take ho (min_le_right _ _)) (forall₂_shrunk_refl bs)
    · exact .cons (Lot.shrunk_take hw (min_le_left _ _)) (forall₂_shrunk_refl cs)
  qty a := by
    simp only [qtyOf, matchedQty, List.map_append, List.map_cons, List.map_nil, List.sum_append,
      List.sum_cons, List.sum_nil, Match.ofLots, openRest, fillRest, Lot.take]
    split_ifs <;> ring
  comm a := by
    simp only [commOf, matchedComm, List.map_append, List.map_cons, List.map_nil, List.sum_append,
      List.sum_cons, List.sum_nil, Match.ofLots, openRest, fillRest, Lot.take]
    split_ifs <;> ring

/-! ## The two agree -/

/-- The restarts find the pairs of the one-pass queue, in the same order, and leave its open
lots. -/
theorem restartLoop_append (heps : 0 ≤ eps) (n : ℕ) (done work : List (Lot α K))
    (hn : (live eps (done ++ work)).length < n) (hon : ∃ s, OnSide s (live eps done)) :
    ∃ final, restartLoop eps n (done ++ work) =
        some ((queueFifo eps (live eps done) work).1, final) ∧
      live eps final = (queueFifo eps (live eps done) work).2 ∧
      Settled (done ++ work) (queueFifo eps (live eps done) work).1 final := by
  induction n generalizing done work with
  | zero => exact absurd hn (Nat.not_lt_zero _)
  | succ n ihn =>
    induction work generalizing done with
    | nil =>
      obtain ⟨s, hs⟩ := hon
      refine ⟨done, ?_, rfl, by simpa [queueFifo] using Settled.refl done⟩
      rw [List.append_nil, restartLoop, scan_eq_none hs, queueFifo]
    | cons w work ihw =>
      have hassoc : done ++ w :: work = done ++ [w] ++ work := by simp
      by_cases hw : eps < w.remQty
      · by_cases hside : OnSide w.side (live eps done)
        · -- the fill joins the queue
          have hlive : live eps (done ++ [w]) = live eps done ++ [w] := by
            rw [live_append, live_cons_of_live hw, live_nil]
          have hon' : ∃ s, OnSide s (live eps (done ++ [w])) := by
            refine ⟨w.side, fun l hl => ?_⟩
            rw [hlive, List.mem_append, List.mem_singleton] at hl
            exact hl.elim (hside l) fun h => h ▸ rfl
          have hq : queueFifo eps (live eps done) (w :: work) =
              queueFifo eps (live eps (done ++ [w])) work := by
            rw [queueFifo, consume_of_onSide hw hside, hlive]
            rfl
          rw [hassoc] at hn ⊢
          rw [hq]
          exact ihw _ hn hon'
        · -- the fill meets the oldest open lot, and the loop starts again
          obtain ⟨s, hs⟩ := hon
          cases hd : live eps done with
          | nil => exact absurd (fun l hl => by simp [hd] at hl) hside
          | cons o rest =>
            obtain ⟨as, bs, rfl, has, ho, hbs⟩ := exists_first_live hd
            have hos : o.side = s := hs o (by simp [hd])
            have hows : o.side ≠ w.side := by
              intro h
              exact hside (h ▸ hos ▸ hs)
            have hrest : OnSide o.side rest := fun l hl => by
              rw [hos]
              exact hs l (by simp [hd, hl])
            have hround := length_live_round_lt heps ho hw as bs work
            have hlive : live eps (as ++ openRest o w :: bs) =
                live eps [openRest o w] ++ rest := by rw [live_round has, hbs]
            have hon' : ∃ s, OnSide s (live eps (as ++ openRest o w :: bs)) :=
              ⟨o.side, hlive ▸ onSide_openRest hrest⟩
            obtain ⟨final, hloop, hfinal, hset⟩ :=
              ihn (as ++ openRest o w :: bs) (fillRest o w :: work) (by omega) hon'
            rw [hlive] at hloop hfinal hset
            rw [queueFifo_round heps hw hows, restartLoop_round has ho (hbs ▸ hrest) hw hows, hloop]
            exact ⟨final, rfl, hfinal,
              (settled_round (heps.trans_lt ho) (heps.trans_lt hw) as bs work).trans hset⟩
      · -- a closed fill changes nothing
        have hlive : live eps (done ++ [w]) = live eps done := by
          rw [live_append, live_cons_of_dead hw, live_nil, List.append_nil]
        have hq : queueFifo eps (live eps done) (w :: work) =
            queueFifo eps (live eps (done ++ [w])) work := by
          rw [queueFifo, consume_of_dead (not_lt.1 hw), hlive]
          rfl
        rw [hassoc] at hn ⊢
        rw [hq]
        exact ihw _ hn (by rwa [hlive])

/-- From the start: enough rounds are as many as there are fills, and one to find no pair. -/
theorem restartLoop_eq_queueFifo (heps : 0 ≤ eps) (work : List (Lot α K)) {n : ℕ}
    (hn : work.length < n) :
    ∃ final, restartLoop eps n work = some ((queueFifo eps [] work).1, final) ∧
      live eps final = (queueFifo eps [] work).2 ∧
      Settled work (queueFifo eps [] work).1 final := by
  have hlive : (live eps work).length ≤ work.length := List.length_filter_le ..
  have h := restartLoop_append heps n [] work (by rw [List.nil_append]; omega)
    ⟨.buy, fun l hl => by simp at hl⟩
  simpa only [List.nil_append, live_nil] using h

omit [LinearOrder K] [IsStrictOrderedRing K] in
theorem qtyOf_of_nodup {lots : List (Lot α K)} (hnd : (lots.map Lot.leg).Nodup) {l : Lot α K}
    (hl : l ∈ lots) : qtyOf l.leg lots = l.remQty ∧ commOf l.leg lots = l.remComm := by
  induction lots with
  | nil => cases hl
  | cons x lots ih =>
    rw [List.map_cons, List.nodup_cons] at hnd
    have hzero : ∀ a, a ∉ lots.map Lot.leg → qtyOf a lots = 0 ∧ commOf a lots = 0 := by
      intro a ha
      have hne : ∀ y ∈ lots, y.leg ≠ a := fun y hy h => ha (h ▸ List.mem_map_of_mem hy)
      constructor
      · exact List.sum_eq_zero fun y hy => by
          obtain ⟨z, hz, rfl⟩ := List.mem_map.1 hy
          rw [if_neg (hne z hz)]
      · exact List.sum_eq_zero fun y hy => by
          obtain ⟨z, hz, rfl⟩ := List.mem_map.1 hy
          rw [if_neg (hne z hz)]
    simp only [qtyOf, commOf, List.map_cons, List.sum_cons] at ih hzero ⊢
    rcases List.mem_cons.1 hl with rfl | hl
    · obtain ⟨hq, hc⟩ := hzero l.leg hnd.1
      simp [hq, hc]
    · obtain ⟨hq, hc⟩ := ih hnd.2 hl
      have hne : x.leg ≠ l.leg := fun h => hnd.1 (h ▸ List.mem_map_of_mem hl)
      simp [hne, hq, hc]

/-- Of every lot a fraction is left, and the pairs use the rest of its quantity and of its
commission. -/
theorem Settled.matched_eq {work final : List (Lot α K)} {ms : List (Match α K)}
    (h : Settled work ms final) (hnd : (work.map Lot.leg).Nodup) {l : Lot α K} (hl : l ∈ work) :
    ∃ f : K, 0 ≤ f ∧ matchedQty l.leg ms = (1 - f) * l.remQty ∧
      matchedComm l.leg ms = (1 - f) * l.remComm := by
  obtain ⟨i, hi, rfl⟩ := List.mem_iff_getElem.1 hl
  have hlen := h.shrunk.length_eq
  obtain ⟨hleg, -, f, hf, hq, hc⟩ := h.shrunk.get hi (hlen ▸ hi)
  have hlegs : final.map Lot.leg = work.map Lot.leg := by
    rw [← List.forall₂_eq_eq_eq, List.forall₂_map_left_iff, List.forall₂_map_right_iff]
    exact h.shrunk.flip.imp fun _ _ hs => hs.1
  obtain ⟨hq0, hc0⟩ := qtyOf_of_nodup hnd hl
  obtain ⟨hq1, hc1⟩ := qtyOf_of_nodup (hlegs ▸ hnd) (List.getElem_mem (hlen ▸ hi))
  have hqty := h.qty work[i].leg
  have hcomm := h.comm work[i].leg
  simp only [List.get_eq_getElem] at hleg hq hc
  rw [hleg] at hq1 hc1
  rw [hq0, hq1, hq] at hqty
  rw [hc0, hc1, hc] at hcomm
  exact ⟨f, hf, by linear_combination hqty, by linear_combination hcomm⟩

end Rounds

/-! ## Facts about the queue -/

section Queue

variable [Field K] [LinearOrder K] {eps : K}

theorem queueFifo_append (queue xs ys : List (Lot α K)) :
    queueFifo eps queue (xs ++ ys) =
      ((queueFifo eps queue xs).1 ++ (queueFifo eps (queueFifo eps queue xs).2 ys).1,
        (queueFifo eps (queueFifo eps queue xs).2 ys).2) := by
  induction xs generalizing queue with
  | nil => rfl
  | cons x xs ih => simp only [List.cons_append, queueFifo, ih, List.append_assoc]

theorem IsOpen.consume {queue : List (Lot α K)} (h : IsOpen eps queue) (w : Lot α K) :
    IsOpen eps (consume eps queue w).2 := by
  induction queue generalizing w with
  | nil =>
    rw [FifoMatching.consume]
    split_ifs with hw
    · exact ⟨fun l hl => List.mem_singleton.1 hl ▸ hw, w.side,
        fun l hl => List.mem_singleton.1 hl ▸ rfl⟩
    · exact .nil
  | cons o rest ih =>
    rw [FifoMatching.consume]
    split_ifs with hw hside hrest
    · exact h
    · refine ⟨fun l hl => ?_, o.side, fun l hl => ?_⟩
      · rcases List.mem_append.1 hl with hl | hl
        exacts [h.isLive l hl, List.mem_singleton.1 hl ▸ not_le.1 hw]
      · rcases List.mem_append.1 hl with hl | hl
        exacts [h.onSide l hl, List.mem_singleton.1 hl ▸ hside.symm]
    · exact h.cons_of_side (openRest_side o w) hrest
    · exact ih h.tail _

theorem IsOpen.queueFifo {queue : List (Lot α K)} (h : IsOpen eps queue) (ws : List (Lot α K)) :
    IsOpen eps (queueFifo eps queue ws).2 := by
  induction ws generalizing queue with
  | nil => exact h
  | cons w ws ih => exact ih (h.consume w)

/-! ### The legs of the pairs -/

/-- Every pair joins a leg of the queue or of the fills with a leg of the fills, and the earlier
of the two opens. -/
theorem consume_rel {R : α → α → Prop} {queue : List (Lot α K)} {w : Lot α K}
    (h : ∀ o ∈ queue, R o.leg w.leg) : ∀ m ∈ (consume eps queue w).1, R m.opening m.closing := by
  induction queue generalizing w with
  | nil => simp [consume]
  | cons o rest ih =>
    have ho : R o.leg w.leg := h o (List.mem_cons_self ..)
    have hrest : ∀ l ∈ rest, R l.leg (fillRest o w).leg :=
      fun l hl => h l (List.mem_cons_of_mem _ hl)
    rw [consume]
    split_ifs
    · simp
    · simp
    · intro m hm
      rw [List.mem_singleton.1 hm]
      exact ho
    · intro m hm
      rcases List.mem_cons.1 hm with rfl | hm
      exacts [ho, ih hrest m hm]

/-- The lots that stay open are of the legs of the queue and of the fill. -/
theorem leg_mem_of_mem_consume {queue : List (Lot α K)} {w l : Lot α K}
    (hl : l ∈ (consume eps queue w).2) : l.leg = w.leg ∨ ∃ o ∈ queue, l.leg = o.leg := by
  induction queue generalizing w with
  | nil =>
    rw [consume] at hl
    split_ifs at hl with hw
    · exact Or.inl (List.mem_singleton.1 hl ▸ rfl)
    · cases hl
  | cons o rest ih =>
    rw [consume] at hl
    split_ifs at hl
    · exact Or.inr ⟨l, hl, rfl⟩
    · rcases List.mem_append.1 hl with hl | hl
      exacts [Or.inr ⟨l, hl, rfl⟩, Or.inl (List.mem_singleton.1 hl ▸ rfl)]
    · rcases List.mem_cons.1 hl with rfl | hl
      exacts [Or.inr ⟨o, List.mem_cons_self .., rfl⟩, Or.inr ⟨l, List.mem_cons_of_mem _ hl, rfl⟩]
    · rcases ih hl with h | ⟨o', ho', h⟩
      exacts [Or.inl h, Or.inr ⟨o', List.mem_cons_of_mem _ ho', h⟩]

theorem queueFifo_rel {R : α → α → Prop} {queue ws : List (Lot α K)}
    (hws : (ws.map Lot.leg).Pairwise R) (h : ∀ o ∈ queue, ∀ w ∈ ws, R o.leg w.leg) :
    ∀ m ∈ (queueFifo eps queue ws).1, R m.opening m.closing := by
  induction ws generalizing queue with
  | nil => simp [queueFifo]
  | cons w ws ih =>
    rw [List.map_cons, List.pairwise_cons] at hws
    intro m hm
    rcases List.mem_append.1 hm with hm | hm
    · exact consume_rel (fun o ho => h o ho w (List.mem_cons_self ..)) m hm
    · refine ih hws.2 (fun o ho x hx => ?_) m hm
      rcases leg_mem_of_mem_consume ho with e | ⟨o', ho', e⟩
      · exact e ▸ hws.1 _ (List.mem_map_of_mem hx)
      · exact e ▸ h o' ho' x (List.mem_cons_of_mem _ hx)

/-- Both legs of every pair are legs of the fills. -/
theorem queueFifo_legs (ws : List (Lot α K)) :
    ∀ m ∈ (queueFifo eps [] ws).1, m.opening ∈ ws.map Lot.leg ∧ m.closing ∈ ws.map Lot.leg := by
  refine queueFifo_rel (R := fun a b => a ∈ ws.map Lot.leg ∧ b ∈ ws.map Lot.leg) ?_ (by simp)
  exact List.pairwise_of_forall_mem_list fun a ha b hb => ⟨ha, hb⟩

/-! ### Relabelling the legs -/

/-- A lot of another leg. -/
def Lot.map (f : α → β) (l : Lot α K) : Lot β K := ⟨f l.leg, l.side, l.remQty, l.remComm⟩

/-- A match of other legs. -/
def Match.map (f : α → β) (m : Match α K) : Match β K :=
  ⟨f m.opening, m.openingSide, f m.closing, m.closingSide, m.qty, m.openingComm, m.closingComm⟩

theorem consume_map (f : α → β) (queue : List (Lot α K)) (w : Lot α K) :
    consume eps (queue.map (Lot.map f)) (w.map f) =
      ((consume eps queue w).1.map (Match.map f), (consume eps queue w).2.map (Lot.map f)) := by
  induction queue generalizing w with
  | nil =>
    by_cases hw : eps < w.remQty <;> simp [consume, Lot.map, hw]
  | cons o rest ih =>
    have hopen : openRest (o.map f) (w.map f) = (openRest o w).map f := rfl
    have hfill : fillRest (o.map f) (w.map f) = (fillRest o w).map f := rfl
    have hpair : Match.ofLots (o.map f) (w.map f) = (Match.ofLots o w).map f := rfl
    have hqty : ∀ l : Lot α K, (l.map f).remQty = l.remQty := fun _ => rfl
    have hside : ∀ l : Lot α K, (l.map f).side = l.side := fun _ => rfl
    simp only [List.map_cons, consume, hopen, hfill, hpair, hqty, hside, ih]
    split_ifs <;> simp

/-- The pairing does not look at the legs. -/
theorem queueFifo_map (eps : K) (f : α → β) (queue ws : List (Lot α K)) :
    queueFifo eps (queue.map (Lot.map f)) (ws.map (Lot.map f)) =
      ((queueFifo eps queue ws).1.map (Match.map f),
        (queueFifo eps queue ws).2.map (Lot.map f)) := by
  induction ws generalizing queue with
  | nil => rfl
  | cons w ws ih =>
    simp only [List.map_cons, queueFifo, consume_map, ih, List.map_append]

/-! ### Leaving legs out -/

/-- A pair joins two legs in `p` or two outside. -/
def Match.Within (p : α → Bool) (m : Match α K) : Prop := p m.opening = p m.closing

theorem consume_filter (p : α → Bool) {queue : List (Lot α K)} (hq : IsOpen eps queue)
    (w : Lot α K) (hm : ∀ m ∈ (consume eps queue w).1, m.Within p) :
    (if p w.leg then consume eps (queue.filter fun l => p l.leg) w
        else ([], queue.filter fun l => p l.leg)) =
      ((consume eps queue w).1.filter fun m => p m.closing,
        (consume eps queue w).2.filter fun l => p l.leg) := by
  induction queue generalizing w with
  | nil =>
    by_cases hp : p w.leg = true <;> by_cases hw : eps < w.remQty <;> simp [consume, hp, hw]
  | cons o rest ih =>
    by_cases hw : w.remQty ≤ eps
    · simp [consume_of_dead hw]
    by_cases hside : o.side = w.side
    · have hon : OnSide w.side (o :: rest) := hside ▸ hq.onSide
      have hon' : OnSide w.side ((o :: rest).filter fun l => p l.leg) :=
        fun l hl => hon l (List.mem_of_mem_filter hl)
      rw [consume_of_onSide (not_le.1 hw) hon, consume_of_onSide (not_le.1 hw) hon',
        List.filter_append]
      by_cases hp : p w.leg = true <;> simp [hp]
    · -- the fill pairs with the oldest lot, which is in `p` exactly when the fill is
      have hpair : (Match.ofLots o w).Within p := by
        refine hm _ ?_
        rw [consume, if_neg hw, if_neg hside]
        split_ifs <;> exact List.mem_cons_self ..
      have hpo : p o.leg = p w.leg := hpair
      have hpc : p (Match.ofLots o w).closing = p w.leg := rfl
      by_cases hrest : eps < (openRest o w).remQty
      · by_cases hp : p w.leg = true
        · simp [consume, hw, hside, hrest, hpo, hp, hpc]
        · simp [consume, hw, hside, hrest, hpo, hp, hpc]
      · have hih := ih hq.tail (fillRest o w) fun m h => hm m (by
          rw [consume, if_neg hw, if_neg hside, if_neg hrest]
          exact List.mem_cons_of_mem _ h)
        rw [fillRest_leg] at hih
        by_cases hp : p w.leg = true
        · rw [if_pos hp] at hih
          simp [consume, hw, hside, hrest, hpo, hp, hpc, hih]
        · rw [if_neg hp] at hih
          simp [consume, hw, hside, hrest, hpo, hp, hpc, ← hih]

/-- When no pair joins a leg in `p` with one outside, the pairs in `p` are those of the fills in
`p` on their own. -/
theorem queueFifo_filter (p : α → Bool) {queue ws : List (Lot α K)} (hq : IsOpen eps queue)
    (hm : ∀ m ∈ (queueFifo eps queue ws).1, m.Within p) :
    queueFifo eps (queue.filter fun l => p l.leg) (ws.filter fun l => p l.leg) =
      ((queueFifo eps queue ws).1.filter fun m => p m.closing,
        (queueFifo eps queue ws).2.filter fun l => p l.leg) := by
  induction ws generalizing queue with
  | nil => rfl
  | cons w ws ih =>
    have hnow := consume_filter p hq w fun m h => hm m (List.mem_append_left _ h)
    have hlater := ih (hq.consume w) fun m h => hm m (List.mem_append_right _ h)
    by_cases hp : p w.leg = true
    · rw [if_pos hp] at hnow
      rw [List.filter_cons_of_pos (by simpa using hp), queueFifo, hnow, hlater, queueFifo,
        List.filter_append]
    · rw [if_neg hp, Prod.mk.injEq] at hnow
      rw [List.filter_cons_of_neg (by simpa using hp), hnow.2, hlater, queueFifo,
        List.filter_append, ← hnow.1, List.nil_append]

end Queue

end FifoMatching
