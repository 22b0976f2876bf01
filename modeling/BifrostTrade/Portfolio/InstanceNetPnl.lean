import BifrostTrade.Lib.Runs
import BifrostTrade.Portfolio.ExecutionWritersProof
import BifrostTrade.Portfolio.TradeSlice
import Mathlib.Algebra.Order.BigOperators.Group.List

/-!
# The P&L of a split fill

The figures that `portfolio/reader/instance_exec_net_pnl.py` derives from the slices of the
executions of a trade: the premium of the options, the realised P&L, the commission, and the
slippage of the stock fills linked to an option.  The premium and the slippage take the size of a
slice as it is, the others its share of the sizes of all splits; `splitsConserve_iff` says for
which splits all of them add up to those of the fill.
-/

namespace Portfolio

open Py Persistence

/-! ## Premium -/

/-- `(sec_type or "").upper() == "OPT"`, with the blanks left on. -/
def isOptView (ex : TradeExecution) : Bool := upper (textOrEmpty ex.secType) = "OPT"

/-- The spellings of a buy. -/
def buySides : List String := ["BUY", "BOT", "B"]

/-- `_opt_group_key`. -/
def optGroupKey (ex : TradeExecution) : String :=
  strip (textOrEmpty ex.contractKey) ++ "|" ++ reprFloat (.fin (finiteOrZero ex.strike))

/-- A fill added to the buy and the sell value of its group. -/
def addPremium (v : ℚ × ℚ) (t : TradeExecution) : ℚ × ℚ :=
  let q := |finiteOrZero t.quantity|
  if q < netQtyEps then v
  else
    let p := finiteOrZero t.price
    let c := finiteOrZero t.commission
    let side := upper (textOrEmpty t.side)
    if side ∈ buySides then (v.1 + (p * q * 100 + c), v.2)
    else if side ∈ sellSides then (v.1, v.2 + (p * q * 100 - c))
    else v

/-- `_sum_opt_groups_realized_pnl`. -/
def sumOptGroupsRealizedPnl (sliced : List TradeExecution) : ℚ :=
  ((groupBy optGroupKey (sliced.filter isOptView)).map fun g =>
    let v := g.2.foldl addPremium (0, 0)
    v.2 - v.1).sum

/-! ## Slippage -/

/-- The stock fills linked to an option fill. -/
structure LinkEntry where
  slippageTotal : Option Double
  slippageVsClose : List (Option Double)

/-- `_slippage_usd_from_link_entry`. -/
def slippageUsdFromLinkEntry (entry : LinkEntry) : ℚ :=
  match entry.slippageTotal.bind finiteValue with
  | some v => v
  | none => (entry.slippageVsClose.filterMap fun s => s.bind finiteValue).sum

/-- `get_option_stock_links_bulk`: the links by option id, for the option ids of each account;
`none` where it raises. -/
abbrev LinksBulk := List (String × List ℤ) → Option (List (ℤ × LinkEntry))

/-- The account and the id under which the links of an option fill are asked for. -/
def linkKey (ex : TradeExecution) : Option (String × ℤ) :=
  let acc := strip (textOrEmpty ex.accountId)
  if acc = "" then none else ex.accountExecutionsId.map fun oi => (acc, oi)

/-- The slippage of one execution's slice. -/
def slippageOfSlice (byOid : List (ℤ × LinkEntry)) (ex : TradeExecution) (sid : ℤ) : ℚ :=
  match sliceExecutionForInstanceOptView ex sid, ex.accountExecutionsId with
  | some sl, some oi =>
      let parentQty := |finiteOrZero ex.quantity|
      if parentQty < netQtyEps then 0
      else
        let ratio := |finiteOrZero sl.quantity| / parentQty
        match byOid.lookup oi with
        | some entry => slippageUsdFromLinkEntry entry * ratio
        | none => 0
  | _, _ => 0

/-- `_instance_option_stock_slippage_adjustment`. -/
def instanceOptionStockSlippageAdjustment (linksBulk : LinksBulk) (raw : List TradeExecution)
    (sid : ℤ) : ℚ :=
  let mine := (raw.filter isOptView).filter fun ex =>
    (sliceExecutionForInstanceOptView ex sid).isSome
  let batches := (groupBy Prod.fst (firstSeen (mine.filterMap linkKey))).map fun g =>
    (g.1, g.2.map Prod.snd)
  if batches = [] then 0
  else
    match linksBulk batches with
    | none => 0
    | some byOid => ((raw.filter isOptView).map fun ex => slippageOfSlice byOid ex sid).sum

/-! ## The splits as they are read -/

/-- What `attach_fill_splits` attaches for a fill. -/
def attachFillSplits (db : ExecutionDb) (k : FillKey) : List FillSplit :=
  (sortedBy TradeExecutionRow.tradeId (db.splitsAt k)).map fun x =>
    let trade := db.trades.rows.find? fun t => t.tradeId = x.tradeId
    { tradeId := x.tradeId
      quantity := x.splitQuantity.getD 0
      strategyOpportunityId := trade.map TradeRow.strategyOpportunityId
      tradeLabel := trade.bind fun t => nonBlank t.label }

/-- An option execution of a raw row, with the splits stored for its fill. -/
structure ReadsFill (db : ExecutionDb) (r : RawRow) (fill : TradeExecution) : Prop where
  option : isOptView fill = true
  side : fill.side = r.side
  quantity : fill.quantity = signedQty r.side r.quantity
  splits : fill.fillSplits = attachFillSplits db r.fillKey

/-! ## Conservation -/

/-- A figure of the slices, summed over the trades of the splits. -/
def overTrades (fill : TradeExecution) (f : TradeExecution → ℚ) : ℚ :=
  (fill.fillSplits.map fun a =>
    ((sliceExecutionForInstanceOptView fill a.tradeId).map f).getD 0).sum

/-- The fill, attributed to one trade. -/
def TradeExecution.whole (fill : TradeExecution) (sid : ℤ) : TradeExecution :=
  { fill with tradeId := some sid, fillSplits := [] }

/-- What the writer lets the sum of the splits be off the quantity. -/
def splitSlack (quantity : Option Double) : ℚ :=
  splitTolerance * max 1 |finiteOrZero quantity|

/-- The slices of a fill add up to it, the premium and the slippage as far as the splits do. -/
structure ConservesPnl (linksBulk : LinksBulk) (fill : TradeExecution) : Prop where
  premium : |overTrades fill (fun s => sumOptGroupsRealizedPnl [s]) -
      sumOptGroupsRealizedPnl [fill]| ≤
    100 * |finiteOrZero fill.price| * splitSlack fill.quantity
  realizedPnl : overTrades fill (fun s => finiteOrZero s.realizedPnl) =
    finiteOrZero fill.realizedPnl
  commission : overTrades fill (fun s => finiteOrZero s.commission) = finiteOrZero fill.commission
  slippage : ∀ sid,
    let unsplit := instanceOptionStockSlippageAdjustment linksBulk [fill.whole sid] sid
    |(fill.fillSplits.map fun a =>
        instanceOptionStockSlippageAdjustment linksBulk [fill] a.tradeId).sum - unsplit| ≤
      |unsplit| * (splitSlack fill.quantity / |finiteOrZero fill.quantity|)

/-- Whether the premium counts an execution of this side. -/
def countsSide (side : Option String) : Bool :=
  upper (textOrEmpty side) ∈ buySides ++ sellSides

/-- The sizes of the splits add up to the size of the fill, and neither the fill nor a split is
noise to the premium alone. -/
structure SizesAddUp (side : Option String) (quantity : Option Double) (splits : List ℚ) :
    Prop where
  some : netQtyEps < (splits.map abs).sum
  size : netQtyEps ≤ |finiteOrZero quantity| →
    |(splits.map abs).sum - (|finiteOrZero quantity|)| ≤ splitSlack quantity
  noise : countsSide side = true →
    (netQtyEps ≤ |finiteOrZero quantity| ∧ ∀ q ∈ splits, netQtyEps ≤ |q|) ∨
      (|finiteOrZero quantity| < netQtyEps ∧ ∀ q ∈ splits, |q| < netQtyEps)

/-! ## One fill -/

/-- What the premium counts a side for: paid, received or nothing. -/
def premiumSign (side : Option String) : ℚ :=
  if upper (textOrEmpty side) ∈ buySides then -1
  else if upper (textOrEmpty side) ∈ sellSides then 1
  else 0

theorem premiumSign_of_counts {side : Option String} (h : countsSide side = true) :
    |premiumSign side| = 1 := by
  simp only [countsSide, List.mem_append, decide_eq_true_eq] at h
  unfold premiumSign
  split_ifs with hbuy hsell
  · norm_num
  · norm_num
  · tauto

theorem premiumSign_of_not_counts {side : Option String} (h : countsSide side = false) :
    premiumSign side = 0 := by
  simp only [countsSide, List.mem_append, decide_eq_false_iff_not, not_or] at h
  rw [premiumSign, if_neg h.1, if_neg h.2]

theorem sumOptGroupsRealizedPnl_singleton {t : TradeExecution} (h : isOptView t = true) :
    sumOptGroupsRealizedPnl [t] =
      if |finiteOrZero t.quantity| < netQtyEps then 0
      else premiumSign t.side * (finiteOrZero t.price * |finiteOrZero t.quantity| * 100) -
        |premiumSign t.side| * finiteOrZero t.commission := by
  have hfilter : [t].filter isOptView = [t] := by simp [h]
  have hgroup : groupBy optGroupKey [t] = [(optGroupKey t, [t])] := by
    simp [groupBy, firstSeen]
  rw [sumOptGroupsRealizedPnl, hfilter, hgroup]
  simp only [List.map_cons, List.map_nil, List.sum_cons, List.sum_nil, add_zero, List.foldl_cons,
    List.foldl_nil, addPremium, premiumSign]
  split_ifs
  · simp
  · rw [abs_neg, abs_one]
    ring
  · rw [abs_one]
    ring
  · simp

/-- The slippage of the links of an option fill. -/
def linkedSlippage (linksBulk : LinksBulk) (ex : TradeExecution) : ℚ :=
  match linkKey ex with
  | none => 0
  | some (acc, oi) =>
      match linksBulk [(acc, [oi])] with
      | none => 0
      | some byOid => ((byOid.lookup oi).map slippageUsdFromLinkEntry).getD 0

/-- The part of the links that goes with a slice. -/
def slippageRatio (parent slice : Option Double) : ℚ :=
  if |finiteOrZero parent| < netQtyEps then 0 else |finiteOrZero slice| / |finiteOrZero parent|

theorem slippage_of_slice {linksBulk : LinksBulk} {ex s : TradeExecution} {sid : ℤ}
    (hopt : isOptView ex = true) (h : sliceExecutionForInstanceOptView ex sid = some s) :
    instanceOptionStockSlippageAdjustment linksBulk [ex] sid =
      linkedSlippage linksBulk ex * slippageRatio ex.quantity s.quantity := by
  have hfilter : [ex].filter isOptView = [ex] := by simp [hopt]
  have hmine : [ex].filter (fun ex => (sliceExecutionForInstanceOptView ex sid).isSome) = [ex] := by
    simp [h]
  unfold instanceOptionStockSlippageAdjustment linkedSlippage
  simp only [hfilter, hmine]
  cases hkey : linkKey ex with
  | none => simp [hkey, groupBy, firstSeen]
  | some key =>
    obtain ⟨acc, oi⟩ := key
    have hid : ex.accountExecutionsId = some oi := by
      unfold linkKey at hkey
      dsimp only at hkey
      split_ifs at hkey
      obtain ⟨n, hn, heq⟩ := Option.map_eq_some_iff.1 hkey
      rw [hn, (Prod.mk.inj heq).2]
    have hbatches : (groupBy Prod.fst (firstSeen ([ex].filterMap linkKey))).map
        (fun g => (g.1, g.2.map Prod.snd)) = [(acc, [oi])] := by
      simp [hkey, groupBy, firstSeen]
    rw [hbatches, if_neg (by simp)]
    dsimp only
    cases linksBulk [(acc, [oi])] with
    | none => simp
    | some byOid =>
      simp only [List.map_cons, List.map_nil, List.sum_cons, List.sum_nil, add_zero,
        slippageOfSlice, h, hid, slippageRatio]
      cases byOid.lookup oi with
      | none => simp
      | some entry => split_ifs <;> simp

/-! ## All slices of a fill -/

section Slices

variable {fill : TradeExecution} (hnd : (fill.fillSplits.map FillSplit.tradeId).Nodup)

theorem overTrades_of_noise (hsize : splitSize fill.fillSplits ≤ netQtyEps)
    (f : TradeExecution → ℚ) : overTrades fill f = 0 := by
  have hzero : ∀ a ∈ fill.fillSplits,
      ((sliceExecutionForInstanceOptView fill a.tradeId).map f).getD 0 = 0 := fun a ha => by
    rw [slice_of_noise (List.ne_nil_of_mem ha) hsize, Option.map_none, Option.getD_none]
  rw [overTrades, List.map_congr_left hzero]
  simp

include hnd

theorem overTrades_eq (hsize : netQtyEps < splitSize fill.fillSplits) (f : TradeExecution → ℚ) :
    overTrades fill f = (fill.fillSplits.map fun a =>
      f (sliceOfSplit fill a (|a.quantity| / splitSize fill.fillSplits))).sum := by
  rw [overTrades]
  refine congrArg List.sum (List.map_congr_left fun a ha => ?_)
  rw [slice_of_split hnd hsize ha, Option.map_some, Option.getD_some]

theorem overTrades_prorated (hsize : netQtyEps < splitSize fill.fillSplits)
    {f : TradeExecution → ℚ} {c : ℚ}
    (hf : ∀ a w, f (sliceOfSplit fill a w) = c * w) : overTrades fill f = c := by
  rw [overTrades_eq hnd hsize, ← sum_shares (netQtyEps_pos.trans hsize).ne' c]
  exact congrArg List.sum (List.map_congr_left fun a _ => hf a _)

theorem slippage_eq (hopt : isOptView fill = true) (hsize : netQtyEps < splitSize fill.fillSplits)
    (linksBulk : LinksBulk) :
    (fill.fillSplits.map fun a =>
      instanceOptionStockSlippageAdjustment linksBulk [fill] a.tradeId).sum =
      linkedSlippage linksBulk fill *
        if |finiteOrZero fill.quantity| < netQtyEps then 0
        else splitSize fill.fillSplits / |finiteOrZero fill.quantity| := by
  have hslice : ∀ a ∈ fill.fillSplits,
      instanceOptionStockSlippageAdjustment linksBulk [fill] a.tradeId =
        linkedSlippage linksBulk fill * (if |finiteOrZero fill.quantity| < netQtyEps then 0
          else 1 / |finiteOrZero fill.quantity|) * |a.quantity| := fun a ha => by
    rw [slippage_of_slice hopt (slice_of_split hnd hsize ha), slippageRatio]
    have hq : finiteOrZero (sliceOfSplit fill a
        (|a.quantity| / splitSize fill.fillSplits)).quantity = a.quantity := rfl
    rw [hq]
    split_ifs <;> ring
  rw [List.map_congr_left hslice, List.sum_map_mul_left]
  show _ * splitSize fill.fillSplits = _
  split_ifs <;> ring

end Slices

theorem slippage_whole {fill : TradeExecution} (hopt : isOptView fill = true)
    (linksBulk : LinksBulk) (sid : ℤ) :
    instanceOptionStockSlippageAdjustment linksBulk [fill.whole sid] sid =
      linkedSlippage linksBulk fill *
        if |finiteOrZero fill.quantity| < netQtyEps then 0 else 1 := by
  have hslice : sliceExecutionForInstanceOptView (fill.whole sid) sid = some (fill.whole sid) :=
    slice_of_whole rfl rfl
  have hopt' : isOptView (fill.whole sid) = true := hopt
  rw [slippage_of_slice hopt' hslice]
  show linkedSlippage linksBulk fill * slippageRatio fill.quantity fill.quantity = _
  unfold slippageRatio
  split_ifs with hnoise
  · rfl
  · have hpos := netQtyEps_pos.trans_le (not_lt.1 hnoise)
    rw [div_self hpos.ne']

/-! ## The premium of the slices -/

/-- The sizes of the splits that the premium does not take for noise. -/
def premiumSize (splits : List FillSplit) : ℚ :=
  (splits.map fun a => if |a.quantity| < netQtyEps then 0 else |a.quantity|).sum

theorem premiumSize_of_big {splits : List FillSplit}
    (h : ∀ a ∈ splits, netQtyEps ≤ |a.quantity|) : premiumSize splits = splitSize splits :=
  congrArg List.sum (List.map_congr_left fun a ha => if_neg (not_lt.2 (h a ha)))

theorem premiumSize_of_noise {splits : List FillSplit}
    (h : ∀ a ∈ splits, |a.quantity| < netQtyEps) : premiumSize splits = 0 := by
  rw [premiumSize, List.map_congr_left fun a ha => if_pos (h a ha)]
  simp

theorem premiumSize_le (splits : List FillSplit) : premiumSize splits ≤ splitSize splits := by
  refine List.sum_le_sum fun a _ => ?_
  split_ifs
  · exact abs_nonneg _
  · exact le_rfl

theorem big_of_premiumSize {splits : List FillSplit} (h : premiumSize splits = splitSize splits)
    (hne : ∀ a ∈ splits, a.quantity ≠ 0) : ∀ a ∈ splits, netQtyEps ≤ |a.quantity| := by
  induction splits with
  | nil => simp
  | cons a splits ih =>
    have hrest := premiumSize_le splits
    have hsum : (if |a.quantity| < netQtyEps then 0 else |a.quantity|) + premiumSize splits =
        |a.quantity| + splitSize splits := h
    have hpos := abs_pos.2 (hne a (List.mem_cons_self ..))
    split_ifs at hsum with hnoise
    · linarith
    · intro b hb
      rcases List.mem_cons.1 hb with rfl | hb
      · exact not_lt.1 hnoise
      · exact ih (by linarith) (fun c hc => hne c (List.mem_cons_of_mem _ hc)) b hb

theorem noise_of_premiumSize {splits : List FillSplit} (h : premiumSize splits = 0) :
    ∀ a ∈ splits, |a.quantity| < netQtyEps := by
  intro a ha
  by_contra hbig
  have hterm : ∀ x ∈ splits.map (fun a : FillSplit =>
      if |a.quantity| < netQtyEps then 0 else |a.quantity|), 0 ≤ x := by
    intro x hx
    obtain ⟨b, -, rfl⟩ := List.mem_map.1 hx
    split_ifs
    · exact le_rfl
    · exact abs_nonneg _
  have hle := List.single_le_sum hterm _ (List.mem_map_of_mem ha)
  rw [if_neg hbig, ← premiumSize, h] at hle
  have hpos := netQtyEps_pos
  exact hbig (hle.trans_lt hpos)

theorem overTrades_premium {fill : TradeExecution}
    (hnd : (fill.fillSplits.map FillSplit.tradeId).Nodup) (hopt : isOptView fill = true)
    (hsize : netQtyEps < splitSize fill.fillSplits) :
    overTrades fill (fun s => sumOptGroupsRealizedPnl [s]) =
      premiumSign fill.side * (finiteOrZero fill.price * premiumSize fill.fillSplits * 100) -
        |premiumSign fill.side| * finiteOrZero fill.commission *
          (premiumSize fill.fillSplits / splitSize fill.fillSplits) := by
  have hslice : ∀ a ∈ fill.fillSplits,
      sumOptGroupsRealizedPnl [sliceOfSplit fill a (|a.quantity| / splitSize fill.fillSplits)] =
        (premiumSign fill.side * finiteOrZero fill.price * 100 -
          |premiumSign fill.side| * finiteOrZero fill.commission / splitSize fill.fillSplits) *
            (if |a.quantity| < netQtyEps then 0 else |a.quantity|) := by
    intro a _
    generalize hw : |a.quantity| / splitSize fill.fillSplits = w
    have hopt' : isOptView (sliceOfSplit fill a w) = true := hopt
    have hq : finiteOrZero (sliceOfSplit fill a w).quantity = a.quantity := rfl
    have hc : finiteOrZero (sliceOfSplit fill a w).commission =
        finiteOrZero fill.commission * w := finiteOrZero_prorate _ _
    have hside : (sliceOfSplit fill a w).side = fill.side := rfl
    have hp : (sliceOfSplit fill a w).price = fill.price := rfl
    rw [sumOptGroupsRealizedPnl_singleton hopt', hq, hc, hside, hp, ← hw]
    split_ifs <;> ring
  rw [overTrades_eq hnd hsize, List.map_congr_left hslice, List.sum_map_mul_left]
  show _ * premiumSize fill.fillSplits = _
  ring

/-! ## When the slices add up -/

theorem sum_abs_quantity (splits : List FillSplit) :
    ((splits.map FillSplit.quantity).map abs).sum = splitSize splits := by
  rw [List.map_map]
  rfl

theorem splitSlack_nonneg (quantity : Option Double) : 0 ≤ splitSlack quantity := by
  unfold splitSlack splitTolerance
  positivity

/-- The premium of the slices, where the sizes add up. -/
theorem premium_of_sizesAddUp {fill : TradeExecution}
    (hnd : (fill.fillSplits.map FillSplit.tradeId).Nodup) (hopt : isOptView fill = true)
    (h : SizesAddUp fill.side fill.quantity (fill.fillSplits.map FillSplit.quantity)) :
    |overTrades fill (fun s => sumOptGroupsRealizedPnl [s]) - sumOptGroupsRealizedPnl [fill]| ≤
      100 * |finiteOrZero fill.price| * splitSlack fill.quantity := by
  have hsize := h.some
  have hmeasure := h.size
  rw [sum_abs_quantity] at hsize hmeasure
  have hslack := splitSlack_nonneg fill.quantity
  rw [overTrades_premium hnd hopt hsize, sumOptGroupsRealizedPnl_singleton hopt]
  cases hcounts : countsSide fill.side with
  | false =>
    rw [premiumSign_of_not_counts hcounts]
    simp only [zero_mul, abs_zero, sub_zero, ite_self]
    positivity
  | true =>
    rcases h.noise hcounts with ⟨hbig, hsplits⟩ | ⟨hnoise, hsplits⟩
    · have hpremium : premiumSize fill.fillSplits = splitSize fill.fillSplits :=
        premiumSize_of_big fun a ha => hsplits _ (List.mem_map_of_mem ha)
      have hne : splitSize fill.fillSplits ≠ 0 := (netQtyEps_pos.trans hsize).ne'
      rw [hpremium, div_self hne, if_neg (not_lt.2 hbig)]
      have hdiff : premiumSign fill.side *
            (finiteOrZero fill.price * splitSize fill.fillSplits * 100) -
            |premiumSign fill.side| * finiteOrZero fill.commission * 1 -
          (premiumSign fill.side *
            (finiteOrZero fill.price * |finiteOrZero fill.quantity| * 100) -
            |premiumSign fill.side| * finiteOrZero fill.commission) =
          premiumSign fill.side * (100 * finiteOrZero fill.price) *
            (splitSize fill.fillSplits - |finiteOrZero fill.quantity|) := by ring
      rw [hdiff, abs_mul, abs_mul, premiumSign_of_counts hcounts, abs_mul, one_mul,
        abs_of_pos (by norm_num : (0 : ℚ) < 100)]
      exact mul_le_mul_of_nonneg_left (hmeasure hbig) (by positivity)
    · have hpremium : premiumSize fill.fillSplits = 0 :=
        premiumSize_of_noise fun a ha => hsplits _ (List.mem_map_of_mem ha)
      rw [hpremium, if_pos hnoise]
      simp only [mul_zero, zero_mul, zero_div, sub_zero, abs_zero]
      positivity

theorem conservesPnl_of_sizesAddUp {linksBulk : LinksBulk} {fill : TradeExecution}
    (hnd : (fill.fillSplits.map FillSplit.tradeId).Nodup) (hopt : isOptView fill = true)
    (h : SizesAddUp fill.side fill.quantity (fill.fillSplits.map FillSplit.quantity)) :
    ConservesPnl linksBulk fill := by
  have hsize := h.some
  have hmeasure := h.size
  rw [sum_abs_quantity] at hsize hmeasure
  refine ⟨premium_of_sizesAddUp hnd hopt h,
    overTrades_prorated hnd hsize fun a w => finiteOrZero_prorate _ _,
    overTrades_prorated hnd hsize fun a w => finiteOrZero_prorate _ _, fun sid => ?_⟩
  rw [slippage_whole hopt, slippage_eq hnd hopt hsize]
  dsimp only
  split_ifs with hnoise
  · simp
  · have hpos := netQtyEps_pos.trans_le (not_lt.1 hnoise)
    have hdiff : linkedSlippage linksBulk fill *
          (splitSize fill.fillSplits / |finiteOrZero fill.quantity|) -
        linkedSlippage linksBulk fill * 1 = linkedSlippage linksBulk fill *
          ((splitSize fill.fillSplits - |finiteOrZero fill.quantity|) /
            |finiteOrZero fill.quantity|) := by
      rw [sub_div, div_self hpos.ne']
      ring
    rw [hdiff, abs_mul, mul_one, abs_div, abs_of_pos hpos]
    exact mul_le_mul_of_nonneg_left
      (div_le_div_of_nonneg_right (hmeasure (not_lt.1 hnoise)) hpos.le) (abs_nonneg _)

/-- An option execution with these splits. -/
def probeFill (side : Option String) (quantity : Option Double) (price commission : ℚ)
    (splits : List FillSplit) : TradeExecution where
  accountExecutionsId := some 1
  accountId := some "U1"
  symbol := none
  secType := some "OPT"
  side := side
  quantity := quantity
  price := some (.fin price)
  commission := some (.fin commission)
  expiry := none
  strike := none
  optionRight := none
  tradeDate := none
  time := none
  contractKey := none
  taxes := none
  netCash := none
  tradeId := none
  tradeLabel := none
  strategyOpportunityId := none
  strategyOpportunityName := none
  fillSplits := splits

/-- Its links, with a slippage of one dollar. -/
def probeLinks : LinksBulk := fun _ => some [(1, ⟨some (.fin 1), []⟩)]

theorem linkedSlippage_probe (side : Option String) (quantity : Option Double)
    (price commission : ℚ) (splits : List FillSplit) :
    linkedSlippage probeLinks (probeFill side quantity price commission splits) = 1 := by
  have hstrip : strip "U1" = "U1" := by decide +kernel
  have hkey : linkKey (probeFill side quantity price commission splits) = some ("U1", 1) := by
    simp [linkKey, probeFill, textOrEmpty, hstrip]
  rw [linkedSlippage, hkey]
  rfl

theorem isOptView_probeFill (side : Option String) (quantity : Option Double)
    (price commission : ℚ) (splits : List FillSplit) :
    isOptView (probeFill side quantity price commission splits) = true := by
  show decide (upper "OPT" = "OPT") = true
  decide +kernel

/-- The slippage of a fill with one unit of it measures the sizes. -/
theorem size_of_slippage {side : Option String} {quantity : Option Double}
    {splits : List FillSplit} (hnd : (splits.map FillSplit.tradeId).Nodup)
    (hsize : netQtyEps < splitSize splits)
    (h : ConservesPnl probeLinks (probeFill side quantity 0 0 splits))
    (hbig : netQtyEps ≤ |finiteOrZero quantity|) :
    |splitSize splits - (|finiteOrZero quantity|)| ≤ splitSlack quantity := by
  have hopt := isOptView_probeFill side quantity 0 0 splits
  have hslip := h.slippage 1
  rw [slippage_whole hopt, slippage_eq hnd hopt hsize] at hslip
  have hq : (probeFill side quantity 0 0 splits).quantity = quantity := rfl
  have hs : (probeFill side quantity 0 0 splits).fillSplits = splits := rfl
  have hpos := netQtyEps_pos.trans_le hbig
  rw [linkedSlippage_probe, hq, hs, if_neg (not_lt.2 hbig), if_neg (not_lt.2 hbig), mul_one,
    one_mul] at hslip
  dsimp only at hslip
  rw [abs_one, one_mul] at hslip
  have hratio : splitSize splits / |finiteOrZero quantity| - 1 =
      (splitSize splits - |finiteOrZero quantity|) / |finiteOrZero quantity| := by
    rw [sub_div, div_self hpos.ne']
  rwa [hratio, abs_div, abs_of_pos hpos, div_le_div_iff_of_pos_right hpos] at hslip

/-- A free option has only its commission in the premium, which tells noise apart. -/
theorem noise_of_premium {side : Option String} {quantity : Option Double}
    {splits : List FillSplit} (hnd : (splits.map FillSplit.tradeId).Nodup)
    (hne : ∀ a ∈ splits, a.quantity ≠ 0) (hsize : netQtyEps < splitSize splits)
    (h : ConservesPnl probeLinks (probeFill side quantity 0 1 splits))
    (hcounts : countsSide side = true) :
    (netQtyEps ≤ |finiteOrZero quantity| ∧ ∀ a ∈ splits, netQtyEps ≤ |a.quantity|) ∨
      (|finiteOrZero quantity| < netQtyEps ∧ ∀ a ∈ splits, |a.quantity| < netQtyEps) := by
  have hopt := isOptView_probeFill side quantity 0 1 splits
  have hprem := h.premium
  have hprice : finiteOrZero (probeFill side quantity 0 1 splits).price = 0 := rfl
  have hcomm : finiteOrZero (probeFill side quantity 0 1 splits).commission = 1 := rfl
  have hq : (probeFill side quantity 0 1 splits).quantity = quantity := rfl
  have hs : (probeFill side quantity 0 1 splits).fillSplits = splits := rfl
  have hside : (probeFill side quantity 0 1 splits).side = side := rfl
  rw [overTrades_premium hnd hopt hsize, sumOptGroupsRealizedPnl_singleton hopt,
    hprice, hcomm, hq, hs, hside, premiumSign_of_counts hcounts] at hprem
  have hpos := netQtyEps_pos.trans hsize
  by_cases hnoise : |finiteOrZero quantity| < netQtyEps
  · refine Or.inr ⟨hnoise, noise_of_premiumSize ?_⟩
    rw [if_pos hnoise] at hprem
    have hzero : premiumSize splits / splitSize splits = 0 := by
      simpa using hprem
    exact (div_eq_zero_iff.1 hzero).resolve_right hpos.ne'
  · refine Or.inl ⟨not_lt.1 hnoise, big_of_premiumSize ?_ hne⟩
    rw [if_neg hnoise] at hprem
    have hone : 1 - premiumSize splits / splitSize splits = 0 := by
      simpa [sub_eq_add_neg, add_comm] using hprem
    rw [sub_eq_zero, eq_comm, div_eq_one_iff_eq hpos.ne'] at hone
    exact hone

theorem sizesAddUp_of_conservesPnl {side : Option String} {quantity : Option Double}
    {splits : List FillSplit} (hnd : (splits.map FillSplit.tradeId).Nodup)
    (hne : ∀ a ∈ splits, a.quantity ≠ 0)
    (h : ∀ price commission,
      ConservesPnl probeLinks (probeFill side quantity price commission splits)) :
    SizesAddUp side quantity (splits.map FillSplit.quantity) := by
  have hsize : netQtyEps < splitSize splits := by
    -- without slices there is no commission
    by_contra hnoise
    have hcomm := (h 0 1).commission
    rw [overTrades_of_noise (not_lt.1 hnoise)] at hcomm
    exact absurd hcomm (by simp [probeFill, finiteOrZero, finiteValue])
  constructor
  · rwa [sum_abs_quantity]
  · intro hbig
    rw [sum_abs_quantity]
    exact size_of_slippage hnd hsize (h 0 0) hbig
  · intro hcounts
    simp only [List.forall_mem_map]
    exact noise_of_premium hnd hne hsize (h 0 1) hcounts

/-! ## The splits the writer accepts -/

variable {db db' : ExecutionDb} {id : ℤ} {items : List SplitItem} {r : RawRow}

theorem attachFillSplits_tradeIds (db : ExecutionDb) (k : FillKey) :
    ((attachFillSplits db k).map FillSplit.tradeId).Nodup := by
  have hperm : ((attachFillSplits db k).map FillSplit.tradeId).Perm
      ((db.splitsAt k).map TradeExecutionRow.tradeId) := by
    rw [attachFillSplits, List.map_map]
    exact (sortedBy_perm _ _).map _
  exact hperm.nodup_iff.2 (db.splitsAt_trades_nodup k)

theorem attachFillSplits_quantities (db : ExecutionDb) (k : FillKey) :
    ((attachFillSplits db k).map FillSplit.quantity).Perm
      ((db.splitsAt k).filterMap TradeExecutionRow.splitQuantity) := by
  have hsome : (db.splitsAt k).filterMap TradeExecutionRow.splitQuantity =
      (db.splitsAt k).map fun x => x.splitQuantity.getD 0 := by
    have hq : ∀ x ∈ db.splitsAt k, x.splitQuantity = some (x.splitQuantity.getD 0) := by
      intro x hx
      obtain ⟨q, hq⟩ := Option.isSome_iff_exists.1 (ExecutionDb.mem_splitsAt.1 hx).2.2
      rw [hq, Option.getD_some]
    rw [List.filterMap_congr hq]
    exact congrFun (List.filterMap_eq_map (f := fun x : TradeExecutionRow =>
      x.splitQuantity.getD 0)) _
  rw [hsome, attachFillSplits, List.map_map]
  exact (sortedBy_perm _ _).map _

theorem attachFillSplits_ne_zero {k : FillKey} {a : FillSplit} (ha : a ∈ attachFillSplits db k) :
    a.quantity ≠ 0 := by
  have hq := (attachFillSplits_quantities db k).mem_iff.1 (List.mem_map_of_mem ha)
  obtain ⟨x, hx, hxq⟩ := List.mem_filterMap.1 hq
  have hallowed := (db.allowed x (ExecutionDb.mem_splitsAt.1 hx).1).2
  intro hzero
  exact hallowed (hxq.trans (congrArg some hzero))

theorem SizesAddUp.of_perm {side : Option String} {quantity : Option Double} {l l' : List ℚ}
    (hperm : l.Perm l') (h : SizesAddUp side quantity l) : SizesAddUp side quantity l' := by
  have hsum := (hperm.map abs).sum_eq
  refine ⟨hsum ▸ h.some, hsum ▸ h.size, fun hcounts => ?_⟩
  exact (h.noise hcounts).imp (And.imp_right fun hall q hq => hall q (hperm.mem_iff.2 hq))
    (And.imp_right fun hall q hq => hall q (hperm.mem_iff.2 hq))

theorem conservesPnl_iff (hr : fillRow db id = some r)
    (h : applyFillSplits db id items = some db') :
    (∀ linksBulk fill, ReadsFill db' r fill → ConservesPnl linksBulk fill) ↔
      SizesAddUp r.side (signedQty r.side r.quantity) (items.filterMap SplitItem.size) := by
  obtain ⟨r', hr', -, -, -, hsizes, -⟩ := of_applyFillSplits h
  obtain rfl := Option.some.inj (hr'.symm.trans hr)
  have hperm := attachFillSplits_quantities db' r'.fillKey
  rw [hsizes] at hperm
  constructor
  · intro h
    refine (sizesAddUp_of_conservesPnl (attachFillSplits_tradeIds db' r'.fillKey)
      (fun a ha => attachFillSplits_ne_zero ha) fun price commission => ?_).of_perm hperm
    refine h probeLinks _ ⟨?_, rfl, rfl, rfl⟩
    show decide (upper "OPT" = "OPT") = true
    decide +kernel
  · intro h linksBulk fill hfill
    apply conservesPnl_of_sizesAddUp _ hfill.option
    · rw [hfill.side, hfill.quantity, hfill.splits]
      exact h.of_perm hperm.symm
    · rw [hfill.splits]
      exact attachFillSplits_tradeIds db' r'.fillKey

/-- Every option execution read for the fill is conserved by the splits, once the writer has
accepted them for it. -/
def SplitsConserve (db : ExecutionDb) (id : ℤ) (items : List SplitItem) : Prop :=
  ∀ r db', fillRow db id = some r → applyFillSplits db id items = some db' →
    ∀ linksBulk fill, ReadsFill db' r fill → ConservesPnl linksBulk fill

/-- The slices of a split fill add up to it exactly when the sizes of its splits add up to its
size. -/
theorem splitsConserve_iff (db : ExecutionDb) (id : ℤ) (items : List SplitItem) :
    SplitsConserve db id items ↔
      ∀ r db', fillRow db id = some r → applyFillSplits db id items = some db' →
        SizesAddUp r.side (signedQty r.side r.quantity) (items.filterMap SplitItem.size) :=
  forall₄_congr fun _ _ hr h => conservesPnl_iff hr h

/-- Splits of one sign that the writer accepts are of the size of the fill. -/
theorem abs_size_sub_le_of_sameSign {q : ℚ} (hr : fillRow db id = some r)
    (h : applyFillSplits db id items = some db') (hitems : items ≠ [])
    (hq : signedQty r.side r.quantity = some (.fin q))
    (hsign : (∀ x ∈ items.filterMap SplitItem.size, 0 ≤ x) ∨
      ∀ x ∈ items.filterMap SplitItem.size, x ≤ 0) :
    |((items.filterMap SplitItem.size).map abs).sum - (|q|)| ≤ splitTolerance * max 1 |q| := by
  have habs : ((items.filterMap SplitItem.size).map abs).sum =
      |(items.filterMap SplitItem.size).sum| := by
    rcases hsign with hpos | hneg
    · rw [List.map_congr_left fun x hx => abs_of_nonneg (hpos x hx), List.map_id',
        abs_of_nonneg (List.sum_nonneg hpos)]
    · have hsum : (items.filterMap SplitItem.size).sum ≤ 0 := by
        have := List.sum_le_card_nsmul _ 0 hneg
        simpa using this
      rw [List.map_congr_left fun x hx => abs_of_nonpos (hneg x hx), abs_of_nonpos hsum]
      have hmul := List.sum_map_mul_left (items.filterMap SplitItem.size) (fun x => x) (-1 : ℚ)
      simpa using hmul
  have hclose : |(items.filterMap SplitItem.size).sum - q| ≤ splitTolerance * max 1 |q| := by
    rcases checked_of_applyFillSplits h hr with hnil | hsum
    · exact absurd hnil hitems
    · rw [normalizedSignedQty, hq] at hsum
      simpa [sumMismatch] using hsum
  rw [habs]
  exact (abs_abs_sub_abs_le _ _).trans hclose

/-! ## Splits of opposite signs -/

/-- One option bought, not yet attributed. -/
def sampleOptionDb : ExecutionDb :=
  Runs.run executionStep ExecutionDb.empty
    [.setTrades sampleTrades, .insert sampleSeqId sampleUuid
      { sampleSplitFill with quantity := some (.fin 1), fillSplits := .absent }]

/-- Two bought for one trade and one sold for another. -/
def sampleOppositeSplits : List SplitItem :=
  [.dict (.id 1) (.number (.fin 2)), .dict (.id 2) (.number (.fin (-1)))]

/-- The splits add up to the one option, and their slices count three. -/
theorem not_splitsConserve_oppositeSigns :
    ¬ SplitsConserve sampleOptionDb (-1) sampleOppositeSplits := by
  intro h
  have hrow : (fillRow sampleOptionDb (-1)).map (fun r => signedQty r.side r.quantity) =
      some (some (.fin 1)) := by decide +kernel
  have haccepted : (applyFillSplits sampleOptionDb (-1) sampleOppositeSplits).isSome = true := by
    decide +kernel
  obtain ⟨r, hr, hq⟩ := Option.map_eq_some_iff.1 hrow
  obtain ⟨db', hdb'⟩ := Option.isSome_iff_exists.1 haccepted
  have hsize :=
    ((conservesPnl_iff hr hdb').1 fun linksBulk fill => h r db' hr hdb' linksBulk fill).size
  rw [hq] at hsize
  exact absurd hsize (by decide +kernel)

end Portfolio
