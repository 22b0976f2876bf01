import BifrostTrade.Lib.Payload
import BifrostTrade.Portfolio.ContractKey
import Mathlib.Logic.Function.Basic

/-!
# Gateway fills

`portfolio/gateway_fills.py`: a fill as the plugin of the IB Gateway sends it becomes a row under
the names that the execution writers read, and a fill without what the book needs is refused.
-/

namespace Portfolio.GatewayFills

open Py

/-! ## Names -/

/-- The names of a fill and of a writer's row.  All but those of the last line are columns of the
raw tables, `time` that of `exec_time`. -/
inductive Name where
  | accountId | execId | time | symbol | secType | side | quantity | price | source
  | expiry | strike | optionRight | exchange | orderId | cumQty | contractKey
  | assetCategory | subCategory | description | conid | securityId | securityIdType
  | cusip | isin | figi | listingExchange | underlyingConid | underlyingSymbol
  | underlyingSecurityId | underlyingListingExchange | issuer | issuerCountryCode
  | tradeId | relatedTradeId | reportDate | tradeDate | settleDateTarget
  | transactionType | multiplier | principalAdjustFactor | proceeds | taxes | netCash
  | closePrice | openCloseIndicator | notes | cost | fifoPnlRealized | mtmPnl
  | tradeMoney | fxRateToBase | acctAlias | model | rawExtra
  | account | shares | ts | commission | realizedPnl | currency | yield_ | yieldRedemptionDate
  deriving DecidableEq

/-- A dictionary; a name that is not in it reads as None. -/
abbrev Fields := Name → PayloadValue

/-- `_RENAMES`: the plugin's name and the writer's. -/
def renames : List (Name × Name) := [(.account, .accountId), (.shares, .quantity), (.ts, .time)]

/-- `_PASSTHROUGH`. -/
def passthrough : List Name :=
  [.execId, .accountId, .time, .symbol, .secType, .side, .quantity, .price,
    .commission, .realizedPnl, .currency, .expiry, .strike, .optionRight, .exchange,
    .orderId, .cumQty, .contractKey, .conid, .multiplier]

/-- The fields that every fill has to have. -/
def required : List Name := [.execId, .accountId, .side, .quantity]

/-- Those that an option fill has to have as well. -/
def requiredOption : List Name := [.expiry, .strike, .optionRight]

/-- The security types of options. -/
def optionSecTypes : List String := ["OPT", "FOP"]

/-- The source of a fill that names none. -/
def gatewayFillSource : String := "tws_client"

/-! ## The mapping -/

/-- `row[writer] = fill[plugin]`, where the row has no value under the writer's name. -/
def rename (fill row : Fields) (names : Name × Name) : Fields :=
  if row names.2 = .null then Function.update row names.2 (fill names.1) else row

/-- `str(row.get("sec_type") or "").strip().upper()`. -/
def secTypeText (row : Fields) : String := upper (strip (row .secType).strOrEmpty)

/-- The key of a stock that has none. -/
def withStkKey (row : Fields) : Fields :=
  let sym := strip (row .symbol).strOrEmpty
  if (row .contractKey).truthy = false ∧ sym ≠ "" ∧ secTypeText row = "STK" then
    Function.update row .contractKey (.text (stkKey (upper sym) "STK"))
  else row

/-- `execution_row_from_gateway_fill`. -/
def executionRowFromGatewayFill (fill : Fields) : Fields :=
  let copied : Fields := fun name => if name ∈ passthrough then fill name else .null
  let source := if (fill .source).truthy then fill .source else .text gatewayFillSource
  withStkKey (Function.update (renames.foldl (rename fill) copied) .source source)

/-- `_missing`. -/
def missing (row : Fields) : List Name :=
  let need := if secTypeText row ∈ optionSecTypes then required ++ requiredOption else required
  need.filter fun name => row name = .null ∨ strip (row name).str = ""

/-- A fill that is not written. -/
structure RefusedFill where
  execId : PayloadValue
  missing : List Name

/-- The row of a fill, or why it has none; `none` for what is no mapping. -/
def acceptFill : Option Fields → Except RefusedFill Fields
  | none => .error ⟨.null, required⟩
  | some fill =>
      let row := executionRowFromGatewayFill fill
      if missing row = [] then .ok row else .error ⟨row .execId, missing row⟩

/-- `execution_rows_from_gateway_fills`: the rows to write and the fills refused. -/
def executionRowsFromGatewayFills (fills : List (Option Fields)) :
    List Fields × List RefusedFill :=
  (fills.filterMap fun fill => (acceptFill fill).toOption,
    fills.filterMap fun fill =>
      match acceptFill fill with
      | .ok _ => none
      | .error refused => some refused)

/-! ## Rows that are written -/

/-- A row of a fill that is accepted. -/
def Accepted (row : Fields) : Prop :=
  ∃ fill, row = executionRowFromGatewayFill fill ∧ missing row = []

theorem accepted_of_mem {fills : List (Option Fields)} {row : Fields}
    (h : row ∈ (executionRowsFromGatewayFills fills).1) : Accepted row := by
  obtain ⟨fill, -, hrow⟩ := List.mem_filterMap.1 h
  cases fill with
  | none => cases hrow
  | some fill =>
    rw [acceptFill] at hrow
    split_ifs at hrow with hmissing
    · obtain rfl := Option.some.inj hrow
      exact ⟨fill, rfl, hmissing⟩
    · cases hrow

theorem mem_of_missing (fill : Fields) (h : missing (executionRowFromGatewayFill fill) = []) :
    executionRowFromGatewayFill fill ∈ (executionRowsFromGatewayFills [some fill]).1 := by
  have haccept : acceptFill (some fill) = .ok (executionRowFromGatewayFill fill) := by
    rw [acceptFill, if_pos h]
  rw [executionRowsFromGatewayFills, List.filterMap_cons, haccept]
  exact List.mem_cons_self ..

theorem Accepted.required {row : Fields} (h : Accepted row) (name : Name)
    (hname : name ∈ required) : row name ≠ .null ∧ strip (row name).str ≠ "" := by
  obtain ⟨-, -, hmissing⟩ := h
  rw [missing] at hmissing
  have hall := List.filter_eq_nil_iff.1 hmissing name (by
    split_ifs
    · exact List.mem_append_left _ hname
    · exact hname)
  simpa [not_or] using hall

theorem rename_of_ne {fill row : Fields} {names : Name × Name} {name : Name}
    (h : name ≠ names.2) : rename fill row names name = row name := by
  unfold rename
  split_ifs
  · exact Function.update_of_ne h _ _
  · rfl

theorem withStkKey_of_ne {row : Fields} {name : Name} (h : name ≠ .contractKey) :
    withStkKey row name = row name := by
  unfold withStkKey
  split_ifs
  · exact Function.update_of_ne h _ _
  · rfl

theorem foldl_rename_of_ne {fill row : Fields} {name : Name} {l : List (Name × Name)}
    (h : ∀ names ∈ l, name ≠ names.2) : l.foldl (rename fill) row name = row name := by
  induction l generalizing row with
  | nil => rfl
  | cons names l ih =>
    rw [List.forall_mem_cons] at h
    rw [List.foldl_cons, ih h.2, rename_of_ne h.1]

/-- A row has the names that are passed through, and the source. -/
theorem executionRow_eq_null {fill : Fields} (name : Name) (h : name ∉ passthrough)
    (hsource : name ≠ .source) : executionRowFromGatewayFill fill name = .null := by
  have hne : ∀ {writer}, writer ∈ passthrough → name ≠ writer := fun hw heq => h (heq ▸ hw)
  have hrenames : ∀ names ∈ renames, names.2 ∈ passthrough := by decide
  rw [executionRowFromGatewayFill, withStkKey_of_ne (hne (by decide)),
    Function.update_of_ne hsource, foldl_rename_of_ne fun names hn => hne (hrenames names hn),
    if_neg h]

end Portfolio.GatewayFills
