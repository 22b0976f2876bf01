import BifrostTrade.Lib.IsoTime
import BifrostTrade.Lib.JsonValue

/-!
# The texts of keyset cursors

The tokens of `portfolio/reader/keyset.py`: base64 of a JSON object that names the version, the
kind and the sort key.  The decoder takes every spelling that base64, JSON and the ISO readers take,
so a token is the encoding of the key it gives exactly when each of the three is spelled as the
encoder spells it (`cursorTokens_iff`).
-/

namespace Portfolio.CursorText

open Py Py.Json Py.Octets
open Py.Iso (codes)

/-- An aware `datetime`. -/
abbrev AwareTime := { t : DateTime // t.offset.isSome }

/-- The lists that have cursors. -/
inductive Kind where
  | executions
  | transactions
  deriving DecidableEq

/-- The kind as a token names it. -/
def Kind.name : Kind → String
  | executions => "executions"
  | transactions => "transactions"

/-- `_MAX_TOKEN_LEN`. -/
def maxTokenLen : ℕ := 512

/-- What `InvalidCursor` says. -/
inductive InvalidCursor where
  | empty
  | tooLong
  | notIssued
  | otherList
  | idNotInteger
  | dateNotText
  | dateNotIso
  | timeNotText
  | timeNotIso
  | timeWithoutOffset
  | fieldsDoNotMatch
  | timeMissing
  deriving DecidableEq

/-- The members of a body. -/
abbrev Body := List (List ℕ × Json.Value)

/-- `body.get(key)`. -/
def get (body : Body) (key : String) : Option Json.Value := body.lookup (codes key.toList)

/-! ## Writing -/

/-- `encode`: what `json.dumps` writes is ASCII, so that its bytes are its characters. -/
def encode (kind : Kind) (payload : List (String × Scalar)) : String :=
  String.ofList (b64encode (codes (dumpsObject
    ([("v", .int 1), ("k", .text kind.name)] ++ payload))))

/-- `_iso` of a date. -/
def isoOfDate (d : Option Date) : Scalar := d.elim .null fun d => .text d.isoformat

/-- `_iso` of a time. -/
def isoOfTime (t : Option AwareTime) : Scalar := t.elim .null fun t => .text t.val.isoformat

/-! ## Reading -/

/-- `v == VERSION`; a true and a float one are equal to it. -/
def isVersion : Option Json.Value → Bool
  | some (.int n) => n = 1
  | some (.bool b) => b
  | some (.float x) => x = .fin 1
  | _ => false

/-- The member is this text. -/
def isText (s : String) : Option Json.Value → Bool
  | some (.text points) => points = codes s.toList
  | _ => false

/-- `_decode_body`. -/
def decodeBody (token : String) (kind : Kind) : Except InvalidCursor Body :=
  let token := (strip token).toList
  if token = [] then .error .empty
  else if maxTokenLen < token.length then .error .tooLong
  else match (b64decode (token ++ padding token)).bind fun raw => (utf8Decode raw).bind loads with
    | some (.object body) =>
        if isVersion (get body "v") = false then .error .notIssued
        else if isText kind.name (get body "k") = false then .error .otherList
        else .ok body
    | _ => .error .notIssued

/-- `_id`. -/
def idOf (body : Body) : Except InvalidCursor ℤ :=
  match get body "i" with
  | some (.int n) => .ok n
  | _ => .error .idNotInteger

/-- `_opt_date`. -/
def optDate (body : Body) (key : String) : Except InvalidCursor (Option Date) :=
  match get body key with
  | none | some .null => .ok none
  | some (.text points) =>
      match Iso.dateFromIso points with
      | some d => .ok (some d)
      | none => .error .dateNotIso
  | _ => .error .dateNotText

/-- `_opt_ts`. -/
def optTs (body : Body) (key : String) : Except InvalidCursor (Option AwareTime) :=
  match get body key with
  | none | some .null => .ok none
  | some (.text points) =>
      match Iso.datetimeFromIso points with
      | some t => if h : t.offset.isSome then .ok (some ⟨t, h⟩) else .error .timeWithoutOffset
      | none => .error .timeNotIso
  | _ => .error .timeNotText

/-- `set(body) == {"v", "k", *fields}`. -/
def HasFields (body : Body) (fields : List String) : Prop :=
  body.map Prod.fst ⊆ (["v", "k"] ++ fields).map (fun s => codes s.toList) ∧
    (["v", "k"] ++ fields).map (fun s => codes s.toList) ⊆ body.map Prod.fst

instance (body : Body) (fields : List String) : Decidable (HasFields body fields) :=
  inferInstanceAs (Decidable (_ ∧ _))

/-! ## Executions -/

/-- The sort key of an execution: its trade date, its time and its id. -/
abbrev ExecutionKey := Option Date × Option AwareTime × ℤ

/-- The fields of an executions cursor. -/
def executionFields : List String := ["d", "t", "i"]

/-- Their values. -/
def executionPayload (k : ExecutionKey) : List (String × Scalar) :=
  [("d", isoOfDate k.1), ("t", isoOfTime k.2.1), ("i", .int k.2.2)]

/-- `encode_executions`. -/
def encodeExecutions (k : ExecutionKey) : String := encode .executions (executionPayload k)

/-- The key of a body of the executions list. -/
def readExecution (body : Body) : Except InvalidCursor ExecutionKey :=
  if HasFields body executionFields then do
    let d ← optDate body "d"
    let t ← optTs body "t"
    let i ← idOf body
    return (d, t, i)
  else .error .fieldsDoNotMatch

/-- `decode_executions`. -/
def decodeExecutions (token : String) : Except InvalidCursor ExecutionKey :=
  (decodeBody token .executions).bind readExecution

/-! ## Transactions -/

/-- The sort key of a transaction: its time and its id. -/
abbrev TransactionKey := AwareTime × ℤ

/-- The fields of a transactions cursor. -/
def transactionFields : List String := ["t", "i"]

/-- Their values. -/
def transactionPayload (k : TransactionKey) : List (String × Scalar) :=
  [("t", isoOfTime (some k.1)), ("i", .int k.2)]

/-- `encode_transactions`. -/
def encodeTransactions (k : TransactionKey) : String := encode .transactions (transactionPayload k)

/-- The time of a transaction, which must be there. -/
def requiredTs : Option AwareTime → Except InvalidCursor AwareTime
  | some t => .ok t
  | none => .error .timeMissing

/-- The key of a body of the transactions list. -/
def readTransaction (body : Body) : Except InvalidCursor TransactionKey :=
  if HasFields body transactionFields then do
    let ts ← optTs body "t"
    let t ← requiredTs ts
    let i ← idOf body
    return (t, i)
  else .error .fieldsDoNotMatch

/-- `decode_transactions`. -/
def decodeTransactions (token : String) : Except InvalidCursor TransactionKey :=
  (decodeBody token .transactions).bind readTransaction

end Portfolio.CursorText
