import BifrostTrade.Lib.Binary64
import BifrostTrade.Lib.Rollup
import BifrostTrade.Portfolio.PayoffProof
import BifrostTrade.Portfolio.PositionAttribution
import BifrostTrade.Portfolio.TradeSlice
import Mathlib.Tactic.FieldSimp

/-!
# The maximum risk of a trade

`_instance_max_risk_from_executions` of `monitor/reader/strategy_win_rate.py`: the option slices of
a trade are netted into one leg for each contract, and the worst payoff of the legs is the risk.

A leg's average cost is the size of the contract's net cost over its net quantity.  The sign is
lost, so a contract bought for a net credit, or sold for a net debit, changes the payoff by twice
its net cost (`nettingKeepsPayoff_iff`).
-/

namespace Portfolio

open Py

/-! ## Reading a slice -/

/-- Part `n` of the contract key. -/
def contractPart (ex : TradeExecution) (n : ℕ) : String :=
  strip (Attribution.splitPart (strip (textOrEmpty ex.contractKey)) n)

/-- The right that a letter stands for. -/
def rightLetterOf (s : String) : Option Right :=
  if s = "C" then some .C else if s = "P" then some .P else none

/-- `_parse_opt_right`: the column, else the first letter of the key's right. -/
def parseOptRight (ex : TradeExecution) : Option Right :=
  (rightLetterOf (upper (strip (textOrEmpty ex.optionRight)))).or
    (rightLetterOf (String.ofList ((upper (contractPart ex 5)).toList.take 1)))

/-- A strike that is a number above zero. -/
def positiveStrike (x : Option Double) : Option ℚ :=
  (x.bind finiteValue).filter fun strike => 0 < strike

/-- `_parse_opt_strike`: the column, else the key's strike. -/
def parseOptStrike (ex : TradeExecution) : Option ℚ :=
  (positiveStrike ex.strike).or (positiveStrike (readFloat (contractPart ex 4)))

/-- Strike and right, where both are readable. -/
def sliceContract (ex : TradeExecution) : Option (ℚ × Right) :=
  (parseOptRight ex).bind fun right => (parseOptStrike ex).map fun strike => (strike, right)

/-- Any other side is a sale. -/
def isBuySide (side : Option String) : Bool := upper (textOrEmpty side) ∈ ["BUY", "BOT", "B"]

/-- The contracts of a slice, negative for a sale; `none` where they are not finite. -/
def signedContracts (ex : TradeExecution) : Option ℚ :=
  (finiteAbs (ex.quantity.getD (.fin 0))).map fun qty => if isBuySide ex.side then qty else -qty

/-- The cost of a slice, negative for a sale; `none` where it is not finite. -/
def signedCost (ex : TradeExecution) : Option ℚ :=
  (signedContracts ex).bind fun signed => (finiteValue (ex.price.getD (.fin 0))).map fun price =>
    price * |signed| * if 0 < signed then 1 else -1

/-! ## Netting -/

/-- What a slice adds to its contract. -/
structure NetEntry where
  contract : ℚ × Right
  qty : Option ℚ
  cost : Option ℚ
  deriving DecidableEq

/-- The entry of an option slice; none without a contract or a quantity. -/
def netEntry (ex : TradeExecution) : Option NetEntry :=
  if upper (textOrEmpty ex.secType) ≠ "OPT" then none
  else (sliceContract ex).bind fun contract =>
    if signedContracts ex = some 0 then none
    else some ⟨contract, signedContracts ex, signedCost ex⟩

/-- The sum, where every term is finite. -/
def sumFinite (terms : List (Option ℚ)) : Option ℚ :=
  terms.foldr (fun term total => term.bind fun x => total.map (x + ·)) (some 0)

/-- The leg of a contract: none when it rounds to no contracts.  It fails where the quantity does
not round, or the cost is not finite and the premium of the legs does not round. -/
def legOfEntries (contract : ℚ × Right) (entries : List NetEntry) :
    Option (Option RiskPosition) :=
  (sumFinite (entries.map NetEntry.qty)).bind fun qty =>
    if Py.round qty = 0 then some none
    else (sumFinite (entries.map NetEntry.cost)).map fun totalCost =>
      some { strike := contract.1
             right := contract.2
             qty := Py.round qty
             avgCost := if 1 / 1000000000 < |qty| then |totalCost / qty| else 0 }

/-- The legs that the slices net to. -/
def nettedLegs (sliced : List TradeExecution) : Option (List RiskPosition) :=
  ((groupBy NetEntry.contract (sliced.filterMap netEntry)).mapM fun g =>
    legOfEntries g.1 g.2).map List.reduceOption

/-- `_instance_max_risk_from_executions`; `none` where it raises. -/
def instanceMaxRiskFromExecutions (sliced : List TradeExecution) (underlyingFallback : ℚ) :
    Option ℚ :=
  (nettedLegs sliced).map fun positions =>
    if positions = [] then max 0 underlyingFallback
    else match (computeRiskProfile positions 0 none).maxLoss with
      | some maxLoss => if maxLoss < 0 then |maxLoss| else max 0 underlyingFallback
      | none => max 0 underlyingFallback

/-! ## What netting should keep -/

/-- An option slice with readable strike and right, whole contracts and a finite price. -/
structure OptionSlice (ex : TradeExecution) : Prop where
  option : upper (textOrEmpty ex.secType) = "OPT"
  contract : (sliceContract ex).isSome
  contracts : ∃ n : ℤ, ex.quantity.getD (.fin 0) = .fin n
  price : (finiteValue (ex.price.getD (.fin 0))).isSome

/-- Contracts of a slice, long positive. -/
def sliceQty (ex : TradeExecution) : ℚ := (signedContracts ex).getD 0

/-- The price of a slice; zero without one. -/
def slicePrice (ex : TradeExecution) : ℚ := (finiteValue (ex.price.getD (.fin 0))).getD 0

/-- Intrinsic value of one share of a contract. -/
def intrinsicOf (contract : ℚ × Right) (price : ℚ) : ℚ :=
  intrinsic { strike := contract.1, right := contract.2, qty := 0, avgCost := 0 } price

/-- The payoff of a slice on its own. -/
def slicePayoff (price : ℚ) (ex : TradeExecution) : ℚ :=
  ((sliceContract ex).map fun contract =>
    (intrinsicOf contract price - slicePrice ex) * sliceQty ex * 100).getD 0

/-- The contracts of a list, each once. -/
def contractsOf (sliced : List TradeExecution) : List (ℚ × Right) :=
  firstSeen (sliced.filterMap sliceContract)

/-- The slices of one contract. -/
def slicesIn (sliced : List TradeExecution) (contract : ℚ × Right) : List TradeExecution :=
  sliced.filter fun ex => sliceContract ex = some contract

/-- What the slices hold of a contract. -/
def netQty (sliced : List TradeExecution) (contract : ℚ × Right) : ℚ :=
  ((slicesIn sliced contract).map sliceQty).sum

/-- What they paid for it. -/
def netCost (sliced : List TradeExecution) (contract : ℚ × Right) : ℚ :=
  ((slicesIn sliced contract).map fun ex => slicePrice ex * sliceQty ex).sum

/-- No contract ends flat. -/
def NoneFlat (sliced : List TradeExecution) : Prop :=
  ∀ contract ∈ contractsOf sliced, netQty sliced contract ≠ 0

instance (sliced : List TradeExecution) : Decidable (NoneFlat sliced) :=
  inferInstanceAs (Decidable (∀ _ ∈ _, _))

/-- The legs pay at every price what the slices pay. -/
def NettingKeepsPayoff (sliced : List TradeExecution) : Prop :=
  ∃ legs, nettedLegs sliced = some legs ∧
    ∀ price, payoffOptionsAtPrice legs price = (sliced.map (slicePayoff price)).sum

/-- The net cost of a contract where it opposes the net quantity: a long contract held for a net
credit, or a short one for a net debit. -/
def opposedCost (sliced : List TradeExecution) (contract : ℚ × Right) : ℚ :=
  if netCost sliced contract * netQty sliced contract < 0 then netCost sliced contract else 0

/-! ## The legs of whole contracts -/

theorem OptionSlice.sliceQty_int {ex : TradeExecution} (h : OptionSlice ex) :
    ∃ n : ℤ, signedContracts ex = some (n : ℚ) ∧ sliceQty ex = n := by
  obtain ⟨n, hn⟩ := h.contracts
  have hsigned :
      signedContracts ex = some (if isBuySide ex.side then |(n : ℚ)| else -|(n : ℚ)|) := by
    rw [signedContracts, hn]
    rfl
  by_cases hbuy : isBuySide ex.side
  · rw [if_pos hbuy] at hsigned
    exact ⟨|n|, by rw [hsigned, Int.cast_abs], by rw [sliceQty, hsigned, Int.cast_abs]; rfl⟩
  · rw [if_neg hbuy] at hsigned
    refine ⟨-|n|, ?_, ?_⟩
    · rw [hsigned, Int.cast_neg, Int.cast_abs]
    · rw [sliceQty, hsigned, Int.cast_neg, Int.cast_abs]
      rfl

theorem OptionSlice.signedContracts_eq {ex : TradeExecution} (h : OptionSlice ex) :
    signedContracts ex = some (sliceQty ex) := by
  obtain ⟨n, hn, hqty⟩ := h.sliceQty_int
  rw [hn, hqty]

theorem OptionSlice.signedCost_eq {ex : TradeExecution} (h : OptionSlice ex) :
    signedCost ex = some (slicePrice ex * sliceQty ex) := by
  obtain ⟨price, hprice⟩ := Option.isSome_iff_exists.1 h.price
  have hcost : signedCost ex =
      some (price * |sliceQty ex| * if 0 < sliceQty ex then 1 else -1) := by
    rw [signedCost, h.signedContracts_eq, hprice]
    rfl
  rw [hcost, slicePrice, hprice, Option.getD_some, mul_assoc]
  split_ifs with hpos
  · rw [abs_of_pos hpos, mul_one]
  · rw [abs_of_nonpos (not_lt.1 hpos), neg_mul_neg, mul_one]

/-- The entry of an option slice: none for no contracts. -/
theorem OptionSlice.netEntry_eq {ex : TradeExecution} (h : OptionSlice ex) {contract : ℚ × Right}
    (hcontract : sliceContract ex = some contract) :
    netEntry ex = if sliceQty ex = 0 then none
      else some ⟨contract, some (sliceQty ex), some (slicePrice ex * sliceQty ex)⟩ := by
  rw [netEntry, if_neg (not_not_intro h.option), hcontract, Option.bind_some,
    h.signedContracts_eq, h.signedCost_eq]
  by_cases hzero : sliceQty ex = 0
  · rw [if_pos hzero, if_pos (congrArg some hzero)]
  · rw [if_neg hzero, if_neg fun e => hzero (Option.some.inj e)]

/-- A figure of the entries of a contract adds up as that of its slices does. -/
theorem sumFinite_entries {sliced : List TradeExecution} (h : ∀ ex ∈ sliced, OptionSlice ex)
    (contract : ℚ × Right) {figure : NetEntry → Option ℚ} {f : TradeExecution → ℚ}
    (hentry : ∀ ex ∈ sliced, ∀ c,
      figure ⟨c, some (sliceQty ex), some (slicePrice ex * sliceQty ex)⟩ = some (f ex))
    (hzero : ∀ ex ∈ sliced, sliceQty ex = 0 → f ex = 0) :
    sumFinite (((sliced.filterMap netEntry).filter fun e => e.contract = contract).map figure) =
      some ((slicesIn sliced contract).map f).sum := by
  induction sliced with
  | nil => rfl
  | cons ex sliced ih =>
    obtain ⟨hex, hrest⟩ := List.forall_mem_cons.1 h
    have ih := ih hrest (fun e he => hentry e (List.mem_cons_of_mem _ he))
      fun e he => hzero e (List.mem_cons_of_mem _ he)
    obtain ⟨c, hc⟩ := Option.isSome_iff_exists.1 hex.contract
    have hslices : slicesIn (ex :: sliced) contract =
        if c = contract then ex :: slicesIn sliced contract else slicesIn sliced contract := by
      simp [slicesIn, List.filter_cons, hc]
    by_cases hqty : sliceQty ex = 0
    · rw [List.filterMap_cons_none (by rw [hex.netEntry_eq hc, if_pos hqty]), ih, hslices]
      split_ifs
      · rw [List.map_cons, List.sum_cons, hzero ex List.mem_cons_self hqty, zero_add]
      · rfl
    · rw [List.filterMap_cons_some (by rw [hex.netEntry_eq hc, if_neg hqty]), hslices]
      by_cases hk : c = contract
      · rw [List.filter_cons_of_pos (by simpa using hk), if_pos hk, List.map_cons, List.map_cons,
          List.sum_cons, hentry ex List.mem_cons_self c]
        calc sumFinite (some (f ex) :: _) = (sumFinite _).map (f ex + ·) := rfl
          _ = _ := by rw [ih, Option.map_some]
      · rw [List.filter_cons_of_neg (by simpa using hk), if_neg hk, ih]

theorem netQty_int {sliced : List TradeExecution} (h : ∀ ex ∈ sliced, OptionSlice ex)
    (contract : ℚ × Right) : ∃ n : ℤ, netQty sliced contract = n := by
  have hmem : ∀ ex ∈ slicesIn sliced contract, OptionSlice ex := fun ex hex =>
    h ex (List.mem_of_mem_filter hex)
  unfold netQty
  generalize slicesIn sliced contract = slices at hmem
  induction slices with
  | nil => exact ⟨0, by simp⟩
  | cons ex slices ih =>
    obtain ⟨hex, hrest⟩ := List.forall_mem_cons.1 hmem
    obtain ⟨n, -, hn⟩ := hex.sliceQty_int
    obtain ⟨total, htotal⟩ := ih hrest
    exact ⟨n + total, by rw [List.map_cons, List.sum_cons, hn, htotal, Int.cast_add]⟩

/-- The leg of a contract that does not end flat. -/
def netLeg (sliced : List TradeExecution) (contract : ℚ × Right) : RiskPosition where
  strike := contract.1
  right := contract.2
  qty := Py.round (netQty sliced contract)
  avgCost := |netCost sliced contract / netQty sliced contract|

theorem legOfEntries_of_slices {sliced : List TradeExecution}
    (h : ∀ ex ∈ sliced, OptionSlice ex) {contract : ℚ × Right}
    (hopen : netQty sliced contract ≠ 0) :
    legOfEntries contract ((sliced.filterMap netEntry).filter fun e => e.contract = contract) =
      some (some (netLeg sliced contract)) := by
  obtain ⟨n, hn⟩ := netQty_int h contract
  have hqty : sumFinite (((sliced.filterMap netEntry).filter fun e =>
      e.contract = contract).map NetEntry.qty) = some (netQty sliced contract) :=
    sumFinite_entries h contract (fun _ _ _ => rfl) fun _ _ hzero => hzero
  have hcost : sumFinite (((sliced.filterMap netEntry).filter fun e =>
      e.contract = contract).map NetEntry.cost) = some (netCost sliced contract) :=
    sumFinite_entries h contract (fun _ _ _ => rfl) fun _ _ hzero => by rw [hzero, mul_zero]
  have hn0 : n ≠ 0 := by
    rintro rfl
    exact hopen (by rw [hn, Int.cast_zero])
  have hround : Py.round (netQty sliced contract) ≠ 0 := by rwa [hn, round_intCast]
  have hbig : 1 / 1000000000 < |netQty sliced contract| := by
    have hone : (1 : ℚ) ≤ |(n : ℚ)| := by exact_mod_cast Int.one_le_abs hn0
    rw [hn]
    linarith
  rw [legOfEntries, hqty, Option.bind_some, if_neg hround, hcost, Option.map_some, if_pos hbig]
  rfl

/-! ## One leg for each contract -/

/-- The contracts of the entries are those of the slices. -/
theorem contracts_perm {sliced : List TradeExecution} (h : ∀ ex ∈ sliced, OptionSlice ex)
    (hopen : NoneFlat sliced) :
    (firstSeen ((sliced.filterMap netEntry).map NetEntry.contract)).Perm (contractsOf sliced) := by
  refine (List.perm_ext_iff_of_nodup (firstSeen_nodup _) (firstSeen_nodup _)).2 fun k => ?_
  rw [mem_firstSeen, mem_firstSeen]
  constructor
  · intro hk
    obtain ⟨e, he, rfl⟩ := List.mem_map.1 hk
    obtain ⟨ex, hex, hentry⟩ := List.mem_filterMap.1 he
    obtain ⟨c, hc⟩ := Option.isSome_iff_exists.1 (h ex hex).contract
    rw [(h ex hex).netEntry_eq hc] at hentry
    split_ifs at hentry
    obtain rfl := Option.some.inj hentry
    exact List.mem_filterMap.2 ⟨ex, hex, hc⟩
  · intro hk
    by_contra hnone
    refine hopen k (mem_firstSeen.2 hk) (List.sum_eq_zero fun x hx => ?_)
    obtain ⟨ex, hex, rfl⟩ := List.mem_map.1 hx
    obtain ⟨hex, hc⟩ := List.mem_filter.1 hex
    by_contra hqty
    have hentry := (h ex hex).netEntry_eq (of_decide_eq_true hc)
    rw [if_neg hqty] at hentry
    exact hnone (List.mem_map.2 ⟨_, List.mem_filterMap.2 ⟨ex, hex, hentry⟩, rfl⟩)

theorem mapM_some_some {α β : Type*} {F : α → Option (Option β)} {g : α → β} {l : List α}
    (h : ∀ a ∈ l, F a = some (some (g a))) :
    (l.mapM F).map List.reduceOption = some (l.map g) := by
  have hmap : l.mapM F = some (l.map fun a => some (g a)) := by
    induction l with
    | nil => rfl
    | cons a l ih =>
      obtain ⟨ha, hl⟩ := List.forall_mem_cons.1 h
      rw [List.mapM_cons, ha, ih hl]
      rfl
  have hreduce : (l.map fun a => some (g a)).reduceOption = l.map g := by
    show (l.map fun a => some (g a)).filterMap id = l.map g
    simp [List.filterMap_map]
  rw [hmap, Option.map_some, hreduce]

theorem nettedLegs_of_slices {sliced : List TradeExecution} (h : ∀ ex ∈ sliced, OptionSlice ex)
    (hopen : NoneFlat sliced) :
    nettedLegs sliced =
      some ((firstSeen ((sliced.filterMap netEntry).map NetEntry.contract)).map
        (netLeg sliced)) := by
  have hlegs := mapM_some_some (F := fun g : (ℚ × Right) × List NetEntry => legOfEntries g.1 g.2)
    (g := fun g => netLeg sliced g.1)
    (l := groupBy NetEntry.contract (sliced.filterMap netEntry)) fun g hg => by
      obtain ⟨hkey, hfilter⟩ := mem_groupBy.1 hg
      have hk : g.1 ∈ contractsOf sliced :=
        (contracts_perm h hopen).subset (mem_firstSeen.2 hkey)
      rw [hfilter]
      exact legOfEntries_of_slices h (hopen _ hk)
  rw [nettedLegs, hlegs, groupBy, List.map_map]
  rfl

/-! ## What the legs pay -/

/-- The slices of a contract together. -/
theorem sum_slicePayoff (sliced : List TradeExecution) (contract : ℚ × Right) (price : ℚ) :
    ((slicesIn sliced contract).map (slicePayoff price)).sum =
      (intrinsicOf contract price * netQty sliced contract - netCost sliced contract) * 100 := by
  have hmem : ∀ ex ∈ slicesIn sliced contract, sliceContract ex = some contract := fun ex hex =>
    of_decide_eq_true (List.mem_filter.1 hex).2
  unfold netQty netCost
  generalize slicesIn sliced contract = slices at hmem
  induction slices with
  | nil => simp
  | cons ex slices ih =>
    obtain ⟨hex, hrest⟩ := List.forall_mem_cons.1 hmem
    have hpay : slicePayoff price ex =
        (intrinsicOf contract price - slicePrice ex) * sliceQty ex * 100 := by
      rw [slicePayoff, hex]
      rfl
    simp only [List.map_cons, List.sum_cons, hpay, ih hrest]
    ring

/-- The leg of a contract pays what its slices pay, and twice an opposed cost more. -/
theorem legPayoff_netLeg {sliced : List TradeExecution} (h : ∀ ex ∈ sliced, OptionSlice ex)
    {contract : ℚ × Right} (hopen : netQty sliced contract ≠ 0) (price : ℚ) :
    legPayoff (netLeg sliced contract) price =
      ((slicesIn sliced contract).map (slicePayoff price)).sum +
        opposedCost sliced contract * 200 := by
  have hqty : ((netLeg sliced contract).qty : ℚ) = netQty sliced contract := by
    obtain ⟨n, hn⟩ := netQty_int h contract
    rw [netLeg, hn, round_intCast]
  have hvalue : intrinsic (netLeg sliced contract) price = intrinsicOf contract price := rfl
  have hcost :
      (netLeg sliced contract).avgCost = |netCost sliced contract / netQty sliced contract| := rfl
  rw [legPayoff_eq, hqty, hvalue, hcost, sum_slicePayoff, opposedCost]
  generalize netQty sliced contract = qty at hopen
  generalize netCost sliced contract = cost
  have hdiv : cost / qty * qty = cost := div_mul_cancel₀ cost hopen
  by_cases hopposed : cost * qty < 0
  · have hneg : cost / qty < 0 := div_neg_iff.2 (mul_neg_iff.1 hopposed)
    rw [if_pos hopposed, abs_of_neg hneg]
    linear_combination 100 * hdiv
  · have hpos : 0 ≤ cost / qty := div_nonneg_iff.2 (mul_nonneg_iff.1 (not_lt.1 hopposed))
    rw [if_neg hopposed, abs_of_nonneg hpos]
    linear_combination (-100) * hdiv

/-- Netting keeps the payoff exactly when the opposed costs cancel out: always when none is. -/
theorem nettingKeepsPayoff_iff {sliced : List TradeExecution}
    (h : ∀ ex ∈ sliced, OptionSlice ex) (hopen : NoneFlat sliced) :
    NettingKeepsPayoff sliced ↔
      ((contractsOf sliced).map (opposedCost sliced)).sum = 0 := by
  have hlegs := nettedLegs_of_slices h hopen
  have hpay : ∀ price, payoffOptionsAtPrice ((firstSeen ((sliced.filterMap netEntry).map
      NetEntry.contract)).map (netLeg sliced)) price =
      (sliced.map (slicePayoff price)).sum +
        ((contractsOf sliced).map (opposedCost sliced)).sum * 200 := by
    intro price
    have hcover : sliced.map sliceContract ⊆ (contractsOf sliced).map some := by
      intro c hc
      obtain ⟨ex, hex, rfl⟩ := List.mem_map.1 hc
      obtain ⟨k, hk⟩ := Option.isSome_iff_exists.1 (h ex hex).contract
      exact List.mem_map.2 ⟨k, mem_firstSeen.2 (List.mem_filterMap.2 ⟨ex, hex, hk⟩), hk.symm⟩
    have hsum := sum_filter_keys sliceContract (slicePayoff price) sliced
      ((firstSeen_nodup _).map (Option.some_injective _)) hcover
    rw [List.map_map] at hsum
    calc _ = (((contractsOf sliced)).map fun k => legPayoff (netLeg sliced k) price).sum := by
          rw [payoffOptionsAtPrice, List.map_map]
          exact ((contracts_perm h hopen).map _).sum_eq
      _ = ((contractsOf sliced).map fun k => ((slicesIn sliced k).map (slicePayoff price)).sum +
            opposedCost sliced k * 200).sum :=
          congrArg List.sum (List.map_congr_left fun k hk => legPayoff_netLeg h (hopen k hk) price)
      _ = _ := by
          rw [List.sum_map_add, List.sum_map_mul_right, ← hsum]
          rfl
  constructor
  · rintro ⟨legs, hsome, hkeep⟩
    obtain rfl := Option.some.inj (hlegs.symm.trans hsome)
    have hzero := (hpay 0).symm.trans (hkeep 0)
    linarith
  · intro hzero
    exact ⟨_, hlegs, fun price => by rw [hpay, hzero, zero_mul, add_zero]⟩

/-- A fill of the call at 100. -/
def callFill (side : String) (quantity price : ℚ) : TradeExecution where
  accountExecutionsId := none
  accountId := none
  symbol := none
  secType := some "OPT"
  side := some side
  quantity := some (.fin quantity)
  price := some (.fin price)
  commission := none
  expiry := none
  strike := some (.fin 100)
  optionRight := some "C"
  tradeDate := none
  time := none
  contractKey := none
  taxes := none
  netCash := none
  tradeId := none
  tradeLabel := none
  strategyOpportunityId := none
  strategyOpportunityName := none
  fillSplits := []

theorem sliceContract_callFill (side : String) (quantity price : ℚ) :
    sliceContract (callFill side quantity price) = some (100, .C) := by
  have hright : upper (strip (textOrEmpty (some "C"))) = "C" := by decide +kernel
  have hcolumn : parseOptRight (callFill side quantity price) = some .C := by
    simp [parseOptRight, callFill, hright, rightLetterOf]
  have hstrike : parseOptStrike (callFill side quantity price) = some 100 := by
    simp [parseOptStrike, positiveStrike, callFill, finiteValue, Option.filter]
  rw [sliceContract, hcolumn, hstrike]
  rfl

theorem optionSlice_callFill (side : String) (n : ℤ) (price : ℚ) :
    OptionSlice (callFill side n price) where
  option := by
    show upper (textOrEmpty (some "OPT")) = "OPT"
    decide +kernel
  contract := by rw [sliceContract_callFill]; rfl
  contracts := ⟨n, rfl⟩
  price := rfl

/-- Two calls bought and one sold at a loss. -/
theorem nettingKeepsPayoff_iff_soldLow :
    let sliced := [callFill "BUY" 2 3, callFill "SLD" 1 2]
    (∀ ex ∈ sliced, OptionSlice ex) ∧ NoneFlat sliced ∧
      (NettingKeepsPayoff sliced ↔ ((contractsOf sliced).map (opposedCost sliced)).sum = 0) := by
  intro sliced
  have hslices : ∀ ex ∈ sliced, OptionSlice ex := by
    simp only [sliced, List.mem_cons, List.not_mem_nil, or_false, forall_eq_or_imp, forall_eq]
    exact ⟨optionSlice_callFill "BUY" 2 3, optionSlice_callFill "SLD" 1 2⟩
  have hopen : NoneFlat sliced := by decide +kernel
  exact ⟨hslices, hopen, nettingKeepsPayoff_iff hslices hopen⟩

/-- Two calls bought at 1 and one sold at 5 leave one call for a credit of 3, which the leg takes
for a cost of 3. -/
theorem not_nettingKeepsPayoff_soldHigh :
    let sliced := [callFill "BUY" 2 1, callFill "SLD" 1 5]
    (∀ ex ∈ sliced, OptionSlice ex) ∧ NoneFlat sliced ∧ ¬ NettingKeepsPayoff sliced := by
  intro sliced
  have hslices : ∀ ex ∈ sliced, OptionSlice ex := by
    simp only [sliced, List.mem_cons, List.not_mem_nil, or_false, forall_eq_or_imp, forall_eq]
    exact ⟨optionSlice_callFill "BUY" 2 1, optionSlice_callFill "SLD" 1 5⟩
  refine ⟨hslices, by decide +kernel, ?_⟩
  rintro ⟨legs, hlegs, hkeep⟩
  have hone : nettedLegs sliced = some [⟨100, .C, 1, 3, none⟩] := by decide +kernel
  obtain rfl := Option.some.inj (hone.symm.trans hlegs)
  exact absurd (hkeep 0) (by decide +kernel)

end Portfolio
