import BifrostTrade.Lib.Dict
import BifrostTrade.Lib.Payload
import BifrostTrade.Portfolio.Payoff

/-!
# The positions of the underlyings

`_group_positions` of `portfolio/model/core.py`: the rows of an account, with their quotes, are
gathered by underlying in one pass.  Each group is what the pass over its own rows alone gives, and
every option row that can be read is a leg of its group, in the order of the rows
(`group_positions`).
-/

namespace Pricing

open Py
open Dict (setItem)
open Portfolio (RiskPosition Right)

/-! ## Gathering into a dictionary -/

section Gather

variable {α β κ : Type*} [DecidableEq κ]

/-- One pass that folds each element into the entry of its key gives every key the fold of its own
elements. -/
theorem foldl_setItem_eq_groupBy (key : α → κ) (add : β → α → β) (fresh : β) (l : List α) :
    l.foldl (fun d a => setItem d (key a) (add ((d.lookup (key a)).getD fresh) a)) [] =
      (groupBy key l).map fun g => (g.1, g.2.foldl add fresh) := by
  induction l using List.reverseRecOn with
  | nil => rfl
  | append_singleton l a ih =>
    have hlookup : (((groupBy key l).map fun g => (g.1, g.2.foldl add fresh)).lookup
        (key a)).getD fresh = (l.filter fun b => key b = key a).foldl add fresh := by
      rw [lookup_map_groupBy key (fun _ as => as.foldl add fresh)]
      split
      · rfl
      · rename_i h
        have hnone : l.filter (fun b => key b = key a) = [] :=
          List.filter_eq_nil_iff.2 fun b hb heq =>
            h (of_decide_eq_true heq ▸ List.mem_map_of_mem hb)
        rw [hnone]
        rfl
    have hself : (l ++ [a]).filter (fun b => key b = key a) =
        l.filter (fun b => key b = key a) ++ [a] := by
      rw [List.filter_append, List.filter_cons_of_pos (by simp), List.filter_nil]
    have hother : ∀ k, k ≠ key a →
        (l ++ [a]).filter (fun b => key b = k) = l.filter fun b => key b = k := by
      intro k hk
      rw [List.filter_append, List.filter_cons_of_neg (by simpa using Ne.symm hk),
        List.filter_nil, List.append_nil]
    have hkeys : ((groupBy key l).map fun g => (g.1, g.2.foldl add fresh)).map Prod.fst =
        firstSeen (l.map key) := by
      rw [groupBy, List.map_map, List.map_map]
      exact List.map_id _
    rw [List.foldl_append, List.foldl_cons, List.foldl_nil, ih, hlookup, setItem, hkeys,
      ← List.foldl_concat add fresh a, ← hself, groupBy, groupBy, List.map_append,
      List.map_singleton, firstSeen_concat]
    by_cases hmem : key a ∈ l.map key
    · rw [if_pos (mem_firstSeen.2 hmem), if_pos hmem, List.map_map, List.map_map, List.map_map]
      refine List.map_congr_left fun k _ => ?_
      simp only [Function.comp_apply]
      split
      · rename_i hk
        rw [hk]
      · rename_i hk
        rw [hother k hk]
    · rw [if_neg (mt mem_firstSeen.1 hmem), if_neg hmem, List.map_append, List.map_append,
        List.map_singleton, List.map_singleton, List.map_map, List.map_map]
      refine congrArg (· ++ _) (List.map_congr_left fun k hk => ?_)
      have hne : k ≠ key a := fun heq => hmem (heq ▸ mem_firstSeen.1 hk)
      simp only [Function.comp_apply]
      rw [hother k hne]

end Gather

/-! ## Expiries -/

/-- What a directive can read from the front, two characters first, and what it leaves. -/
def fieldPrefixes (read : List Char → Option ℕ) (cs : List Char) : List (ℕ × List Char) :=
  [2, 1].filterMap fun n =>
    if n ≤ cs.length then (read (cs.take n)).map fun v => (v, cs.drop n) else none

/-- `datetime.strptime(s, "%Y%m%d").date()`; `none` where it raises `ValueError`. -/
def strptimeCompact (s : String) : Option Date :=
  match s.toList with
  | y3 :: y2 :: y1 :: y0 :: rest => do
      let year ← [y3, y2, y1, y0].mapM decimalValue
      let fields := (fieldPrefixes strptimeMonth rest).flatMap fun m =>
        (fieldPrefixes strptimeDay m.2).map fun d => (m.1, d.1, d.2)
      let (month, day, left) ← fields.head?
      if left = [] then Date.ofYmd (digitsValue year) month day else none
  | _ => none

/-- `_parse_expiry`. -/
def parseExpiry (raw : Option String) : Option Date := do
  let s := strip (← raw)
  let text := String.ofList (s.toList.take (if '-' ∈ s.toList then 10 else 8))
  (strptimeCompact text).or (strptimeDate text)

example : parseExpiry (some "20261016") = Date.ofYmd 2026 10 16 ∧
    parseExpiry (some " 2026-10-16T") = Date.ofYmd 2026 10 16 ∧
    parseExpiry (some "202610") = none := by decide +kernel

/-! ## Rows -/

/-- A row of `_fetch_positions`: a position of the account and its live quote. -/
structure QuotedPosition where
  symbol : Option String
  secType : Option String
  position : Option ℚ
  avgCost : Option ℚ
  expiry : Option String
  strike : Option ℚ
  optionRight : Option String
  priceMid : Option Double
  priceLast : Option Double

/-- `(x or "").strip().upper()`. -/
def cleanUpper (x : Option String) : String := upper (strip (textOrEmpty x))

/-- A price that is finite and positive. -/
def positivePrice : Double → Option ℚ
  | .fin x => if 0 < x then some x else none
  | _ => none

/-- `_best_price`: the mid, else the last, where it is finite and positive. -/
def bestPrice (r : QuotedPosition) : Option ℚ :=
  (r.priceMid.bind positivePrice).or (r.priceLast.bind positivePrice)

/-- `int(x)`, towards zero. -/
def truncate (x : ℚ) : ℤ := if x < 0 then ⌈x⌉ else ⌊x⌋

/-- A row with a symbol and a quantity. -/
structure Held where
  symbol : String
  secType : String
  qty : ℚ
  row : QuotedPosition

/-- The position of a row; `none` without a symbol or a quantity. -/
def held (r : QuotedPosition) : Option Held := do
  let qty ← r.position
  if cleanUpper r.symbol = "" ∨ qty = 0 then none
  else return ⟨cleanUpper r.symbol, cleanUpper r.secType, qty, r⟩

/-- The side of an option. -/
def readRight (x : Option String) : Option Right :=
  if cleanUpper x = "C" then some .C else if cleanUpper x = "P" then some .P else none

/-- The leg of an option row; its cost is per contract and becomes one per share. -/
def optionLeg (h : Held) : Option RiskPosition := do
  if h.secType ≠ "OPT" then none
  else
    let strike ← h.row.strike
    let right ← readRight h.row.optionRight
    let avgCost ← h.row.avgCost
    return ⟨strike, right, truncate h.qty, avgCost / 100, parseExpiry h.row.expiry⟩

/-! ## Groups -/

/-- What is gathered of a symbol. -/
structure Group where
  stockQty : ℤ
  stockAvgCost : Option ℚ
  optPositions : List RiskPosition
  spot : Option ℚ
  farthestExpiry : Option Date
  deriving DecidableEq

/-- Of a symbol without rows. -/
def Group.fresh : Group := ⟨0, none, [], none, none⟩

/-- The later of two expiries. -/
def laterExpiry : Option Date → Option Date → Option Date
  | none, e => e
  | some d, none => some d
  | some d, some e => if d < e then some e else some d

/-- A row taken into the group of its symbol. -/
def Group.take (g : Group) (h : Held) : Group :=
  if h.secType = "STK" then
    { g with
      stockQty := truncate h.qty
      stockAvgCost := h.row.avgCost.or g.stockAvgCost
      spot := (bestPrice h.row).or g.spot }
  else
    match optionLeg h with
    | none => g
    | some leg =>
        { g with
          optPositions := g.optPositions ++ [leg]
          farthestExpiry := laterExpiry g.farthestExpiry leg.expiry }

/-- `_group_positions`. -/
def groupPositions (rows : List QuotedPosition) : List (String × Group) :=
  rows.foldl (fun groups r =>
    match held r with
    | none => groups
    | some h => setItem groups h.symbol (((groups.lookup h.symbol).getD .fresh).take h)) []

/-! ## What a group is -/

/-- The rows of a stock, of which the last ones count. -/
def stockRows (hs : List Held) : List Held := hs.filter fun h => h.secType = "STK"

/-- What the rows of a symbol say, read one by one. -/
structure Gathers (hs : List Held) (g : Group) : Prop where
  stockQty : g.stockQty = (((stockRows hs).getLast?).map fun h => truncate h.qty).getD 0
  stockAvgCost : g.stockAvgCost = ((stockRows hs).filterMap fun h => h.row.avgCost).getLast?
  spot : g.spot = ((stockRows hs).filterMap fun h => bestPrice h.row).getLast?
  legs : g.optPositions = hs.filterMap optionLeg
  farthest : g.farthestExpiry = (g.optPositions.filterMap RiskPosition.expiry).max?

theorem laterExpiry_none (e : Option Date) : laterExpiry e none = e := by
  cases e with
  | none => rfl
  | some d => rfl

theorem laterExpiry_max? (l : List Date) (e : Date) :
    laterExpiry l.max? (some e) = (l ++ [e]).max? := by
  cases l with
  | nil => rfl
  | cons d l =>
    rw [List.cons_append, List.max?_cons', List.max?_cons', List.foldl_append, List.foldl_cons,
      List.foldl_nil, laterExpiry, max_def']
    split
    · rename_i h
      rw [if_neg (not_le_of_gt h)]
    · rename_i h
      rw [if_pos (le_of_not_gt h)]

theorem Gathers.nil : Gathers [] .fresh := ⟨rfl, rfl, rfl, rfl, rfl⟩

theorem Group.take_stock {g : Group} {h : Held} (hsec : h.secType = "STK") :
    g.take h = { g with
      stockQty := truncate h.qty
      stockAvgCost := h.row.avgCost.or g.stockAvgCost
      spot := (bestPrice h.row).or g.spot } := if_pos hsec

theorem optionLeg_of_stock {h : Held} (hsec : h.secType = "STK") : optionLeg h = none := by
  rw [optionLeg, if_pos]
  rw [hsec]
  decide

theorem getLast?_filterMap_concat {α β : Type*} (f : α → Option β) (l : List α) (a : α) :
    ((l ++ [a]).filterMap f).getLast? = (f a).or (l.filterMap f).getLast? := by
  rw [List.filterMap_append, List.getLast?_append]
  cases h : f a with
  | none => rw [List.filterMap_cons_none h, List.filterMap_nil, List.getLast?_nil]
  | some b => rw [List.filterMap_cons_some h, List.filterMap_nil, List.getLast?_singleton]

/-- The pass over the rows of a symbol gathers them. -/
theorem Gathers.take {hs : List Held} {g : Group} (hg : Gathers hs g) (h : Held) :
    Gathers (hs ++ [h]) (g.take h) := by
  by_cases hsec : h.secType = "STK"
  · have hstock : stockRows (hs ++ [h]) = stockRows hs ++ [h] := by
      rw [stockRows, List.filter_append, List.filter_cons_of_pos (by simpa using hsec),
        List.filter_nil]
      rfl
    have hlegs : (hs ++ [h]).filterMap optionLeg = hs.filterMap optionLeg := by
      rw [List.filterMap_append, List.filterMap_cons_none (optionLeg_of_stock hsec),
        List.filterMap_nil, List.append_nil]
    rw [Group.take_stock hsec]
    refine ⟨?_, ?_, ?_, hg.legs.trans hlegs.symm, hg.farthest⟩
    · rw [hstock, List.getLast?_concat]
      rfl
    · rw [hstock, getLast?_filterMap_concat, ← hg.stockAvgCost]
    · rw [hstock, getLast?_filterMap_concat, ← hg.spot]
  · have hstock : stockRows (hs ++ [h]) = stockRows hs := by
      rw [stockRows, List.filter_append, List.filter_cons_of_neg (by simpa using hsec),
        List.filter_nil, List.append_nil]
      rfl
    rw [Group.take, if_neg hsec]
    cases hleg : optionLeg h with
    | none =>
      have hlegs : (hs ++ [h]).filterMap optionLeg = hs.filterMap optionLeg := by
        rw [List.filterMap_append, List.filterMap_cons_none hleg, List.filterMap_nil,
          List.append_nil]
      exact ⟨hstock ▸ hg.stockQty, hstock ▸ hg.stockAvgCost, hstock ▸ hg.spot,
        hg.legs.trans hlegs.symm, hg.farthest⟩
    | some leg =>
      refine ⟨hstock ▸ hg.stockQty, hstock ▸ hg.stockAvgCost, hstock ▸ hg.spot, ?_, ?_⟩
      · rw [List.filterMap_append, List.filterMap_cons_some hleg, List.filterMap_nil, ← hg.legs]
      · dsimp only
        rw [hg.farthest, List.filterMap_append]
        cases hexpiry : leg.expiry with
        | none =>
          rw [laterExpiry_none, List.filterMap_cons_none hexpiry, List.filterMap_nil,
            List.append_nil]
        | some e =>
          rw [List.filterMap_cons_some hexpiry, List.filterMap_nil, laterExpiry_max?]

theorem gathers_foldl (hs : List Held) : Gathers hs (hs.foldl Group.take .fresh) := by
  induction hs using List.reverseRecOn with
  | nil => exact .nil
  | append_singleton hs h ih =>
    rw [List.foldl_append, List.foldl_cons, List.foldl_nil]
    exact ih.take h

/-! ## The groups of the rows -/

theorem groupPositions_eq (rows : List QuotedPosition) : groupPositions rows =
    (groupBy Held.symbol (rows.filterMap held)).map fun g =>
      (g.1, g.2.foldl Group.take .fresh) := by
  rw [← foldl_setItem_eq_groupBy, List.foldl_filterMap, groupPositions]
  congr 1
  funext groups r
  cases held r with
  | none => rfl
  | some h => rfl

theorem keys_groupPositions (rows : List QuotedPosition) :
    (groupPositions rows).map Prod.fst = firstSeen ((rows.filterMap held).map Held.symbol) := by
  rw [groupPositions_eq, groupBy, List.map_map, List.map_map]
  exact List.map_id _

/-- The rows of a symbol. -/
def rowsOf (rows : List QuotedPosition) (symbol : String) : List Held :=
  (rows.filterMap held).filter fun h => h.symbol = symbol

/-- What the groups say of the rows. -/
structure GroupsLaw (rows : List QuotedPosition) (groups : List (String × Group)) : Prop where
  /-- A group for each symbol that is held, in the order the rows have them. -/
  symbols : groups.map Prod.fst = firstSeen ((rows.filterMap held).map Held.symbol)
  /-- A group is of its own rows. -/
  gathers : ∀ symbol g, (symbol, g) ∈ groups → Gathers (rowsOf rows symbol) g
  found : ∀ h ∈ rows.filterMap held, ∀ leg ∈ optionLeg h,
    ∃ g, groups.lookup h.symbol = some g ∧ leg ∈ g.optPositions

/-- **Grouping loses no leg and mixes no underlyings.** -/
theorem group_positions (rows : List QuotedPosition) : GroupsLaw rows (groupPositions rows) := by
  refine ⟨keys_groupPositions rows, fun symbol g hg => ?_, fun h hh leg hleg => ?_⟩
  · rw [groupPositions_eq] at hg
    obtain ⟨rest, hrest, heq⟩ := List.mem_map.1 hg
    obtain ⟨rfl, rfl⟩ := Prod.ext_iff.1 heq
    rw [(mem_groupBy.1 hrest).2]
    exact gathers_foldl _
  · rw [groupPositions_eq, lookup_map_groupBy Held.symbol (fun _ hs => hs.foldl Group.take .fresh),
      if_pos (List.mem_map_of_mem hh)]
    refine ⟨_, rfl, ?_⟩
    rw [(gathers_foldl _).legs]
    exact List.mem_filterMap.2 ⟨h, List.mem_filter.2 ⟨hh, decide_eq_true rfl⟩, hleg⟩

end Pricing
