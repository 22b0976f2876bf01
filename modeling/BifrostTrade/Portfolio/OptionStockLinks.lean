import BifrostTrade.Lib.Binary64
import BifrostTrade.Lib.Calendar
import BifrostTrade.Lib.Dict
import BifrostTrade.Portfolio.ExecutionWriters

/-!
# Option-stock links

The stock fills that an option fill is linked to (`portfolio/reader/option_stock_link.py`), with
the slippage of each against the close and the total of them.  `getOptionStockLinks` reads the links
of one option fill and `getOptionStockLinksBulk` those of many, with one statement an account.
-/

namespace Portfolio

open Py

/-! ## Tables -/

/-- A row of `account_execution_option_stock_link`; `createdAtEpoch` is `created_at` in seconds. -/
structure OptionStockLinkRow where
  linkId : ℤ
  accountId : String
  optionAccountExecutionsId : ℤ
  stockAccountExecutionsId : ℤ
  role : Option String
  note : Option String
  createdAtEpoch : ℤ
  deriving DecidableEq

/-- The primary key, and one link between two fills. -/
def OptionStockLinkRow.clash (x y : OptionStockLinkRow) : Prop :=
  x.linkId = y.linkId ∨
    x.optionAccountExecutionsId = y.optionAccountExecutionsId ∧
      x.stockAccountExecutionsId = y.stockAccountExecutionsId

theorem OptionStockLinkRow.clash_symm (x y : OptionStockLinkRow) (h : x.clash y) : y.clash x :=
  h.imp Eq.symm (And.imp Eq.symm Eq.symm)

/-- A row of `executions_final`. -/
structure FinalExecution where
  accountExecutionsId : ℤ
  accountId : Option String
  symbol : Option String
  side : Option String
  quantity : Option Double
  price : Option Double
  closePrice : Option Double
  tradeDate : Option Date
  execTime : Option ℚ
  execId : Option String
  deriving DecidableEq

/-- The links, and the executions that they name. -/
structure LinkDb where
  links : Sql.Store OptionStockLinkRow.clash
  executionsFinal : List FinalExecution

/-! ## The columns of a link -/

/-- What both readers select. -/
structure LinkColumns where
  linkId : ℤ
  optionAccountExecutionsId : ℤ
  stockAccountExecutionsId : ℤ
  role : Option String
  note : Option String
  createdAtEpoch : ℤ
  stockSymbol : Option String
  stockSide : Option String
  stockQuantity : Option Double
  stockPrice : Option Double
  stockClosePrice : Option Double
  stockTradeDate : Option Date
  stockExecId : Option String
  deriving DecidableEq

/-- A link and the stock fill it names. -/
abbrev LinkedFill := OptionStockLinkRow × FinalExecution

/-- The columns of a link joined with its stock fill. -/
def LinkedFill.columns (p : LinkedFill) : LinkColumns where
  linkId := p.1.linkId
  optionAccountExecutionsId := p.1.optionAccountExecutionsId
  stockAccountExecutionsId := p.1.stockAccountExecutionsId
  role := p.1.role
  note := p.1.note
  createdAtEpoch := p.1.createdAtEpoch
  stockSymbol := p.2.symbol
  stockSide := p.2.side
  stockQuantity := signedQty p.2.side p.2.quantity
  stockPrice := p.2.price
  stockClosePrice := p.2.closePrice
  stockTradeDate := p.2.tradeDate
  stockExecId := p.2.execId

/-- `JOIN executions_final` on the stock fill and the account of the link. -/
def LinkDb.joined (db : LinkDb) : List LinkedFill :=
  db.links.rows.flatMap fun l =>
    (db.executionsFinal.filter fun e =>
      e.accountExecutionsId = l.stockAccountExecutionsId ∧ e.accountId = some l.accountId).map
      fun e => (l, e)

/-- `ORDER BY e.trade_date ASC NULLS LAST, e.exec_time ASC NULLS LAST`: a missing value is the
highest.  Fills that tie keep the order of the tables. -/
def LinkedFill.timeOrder (p : LinkedFill) : WithTop Date ×ₗ WithTop ℚ :=
  toLex (p.2.tradeDate, p.2.execTime)

/-- `ORDER BY l.option_account_executions_id`, then as above. -/
def LinkedFill.bulkOrder (p : LinkedFill) : ℤ ×ₗ WithTop Date ×ₗ WithTop ℚ :=
  toLex (p.1.optionAccountExecutionsId, p.timeOrder)

/-! ## Slippage -/

/-- `_slippage_qty`. -/
def slippageQty (quantity : Option Double) : Double := (quantity.getD (.fin 0)).abs

/-- `slippage_amount_vs_close`. -/
def slippageAmountVsClose (signedQty : Double) (price closePrice : Option Double) :
    Option Double :=
  match price, closePrice with
  | some p, some cp => if signedQty = .nan then none else some (signedQty.mul (p.sub cp))
  | _, _ => none

/-- A link as it is returned. -/
structure StockLink extends LinkColumns where
  slippageVsClose : Option Double
  deriving DecidableEq

/-- The link with what its fill differs from the close. -/
def LinkColumns.withSlippage (d : LinkColumns) : StockLink where
  toLinkColumns := d
  slippageVsClose :=
    slippageAmountVsClose (slippageQty d.stockQuantity) d.stockPrice d.stockClosePrice

/-- One turn of the loop over the links: the total so far, and whether a link had a slippage. -/
def addSlip (state : Double × Bool) (slip : Option Double) : Double × Bool :=
  match slip with
  | some s => (state.1.add s, true)
  | none => state

/-- `total if any_slip else None`. -/
def slippageTotal (slips : List (Option Double)) : Option Double :=
  let (total, anySlip) := slips.foldl addSlip (.fin 0, false)
  if anySlip then some total else none

/-- `{"links": …, "slippage_total": …}`. -/
structure StockLinks where
  links : List StockLink
  slippageTotal : Option Double
  deriving DecidableEq

/-- No links. -/
def StockLinks.empty : StockLinks := ⟨[], none⟩

/-- The links of some rows with their total. -/
def StockLinks.ofLinks (links : List StockLink) : StockLinks where
  links := links
  slippageTotal := Portfolio.slippageTotal (links.map StockLink.slippageVsClose)

/-! ## One option fill -/

/-- `(account_id or "").strip()`. -/
def linkAccount (accountId : Option String) : String := strip (textOrEmpty accountId)

/-- `get_option_stock_links`. -/
def getOptionStockLinks (db : LinkDb) (accountId : Option String)
    (optionAccountExecutionsId : ℤ) : StockLinks :=
  let acc := linkAccount accountId
  if acc = "" then .empty
  else
    let rows := (sortedBy LinkedFill.timeOrder (db.joined.filter fun p =>
      p.1.accountId = acc ∧ p.1.optionAccountExecutionsId = optionAccountExecutionsId)).map
        LinkedFill.columns
    .ofLinks (rows.map LinkColumns.withSlippage)

/-! ## Many option fills -/

/-- Accounts with the option fills asked for under each. -/
abbrev LinkBatches := List (Option String × List ℤ)

/-- The ids with their accounts; a blank account is left out. -/
def askedIds (batches : LinkBatches) : List (String × ℤ) :=
  batches.flatMap fun b =>
    if linkAccount b.1 = "" then [] else b.2.map fun id => (linkAccount b.1, id)

/-- `merged`: the ids of each account, in the order they came in. -/
def mergeBatches (batches : LinkBatches) : List (String × List ℤ) :=
  (groupBy Prod.fst (askedIds batches)).map fun g => (g.1, g.2.map Prod.snd)

/-- The ids an account's statement asks for. -/
def maxBulkIds : ℕ := 4000

/-- The rows of an account's statement. -/
def bulkRows (db : LinkDb) (acc : String) (uniqIds : List ℤ) : List LinkColumns :=
  (sortedBy LinkedFill.bulkOrder (db.joined.filter fun p =>
    p.1.accountId = acc ∧ p.1.optionAccountExecutionsId ∈ uniqIds)).map LinkedFill.columns

/-- The links of an account by option id, for the ids that have some. -/
def linksByOption (db : LinkDb) (acc : String) (rawIds : List ℤ) : List (ℤ × StockLinks) :=
  let uniqIds := (firstSeen rawIds).take maxBulkIds
  let byOid := groupBy (fun d => d.optionAccountExecutionsId)
    ((bulkRows db acc uniqIds).map LinkColumns.withSlippage)
  byOid.map fun g => (g.1, .ofLinks g.2)

/-- `out_by_option`: the accounts one after another, by option id alone. -/
def outByOption (db : LinkDb) (batches : LinkBatches) : List (ℤ × StockLinks) :=
  (mergeBatches batches).foldl (fun out g => Dict.setItems out (linksByOption db g.1 g.2)) []

/-- `get_option_stock_links_bulk`; its keys are the option ids as texts. -/
def getOptionStockLinksBulk (db : LinkDb) (batches : LinkBatches) : List (String × StockLinks) :=
  (outByOption db batches).map fun e => (toString e.1, e.2)

end Portfolio
