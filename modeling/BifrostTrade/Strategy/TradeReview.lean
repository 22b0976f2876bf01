import BifrostTrade.Strategy.TradeWrite

/-!
# Trade reviews

One record a trade: the tags that the rules missed, the derived tags that do not apply, and when the
trader called the review done.  `save_review` takes the body of a PUT and `patch_review` that of a
PATCH; both keep what they are not told about, neither deletes.
-/

namespace Strategy

open Py Sql
open Portfolio.GateSafety (key checkFields)
open Portfolio (WriteSupport.text WriteSupport.boolean WriteSupport.listValue)
open Portfolio.Plan (Instant)

/-! ## Tags -/

/-- `TAG_MAX`. -/
def tagMax : ℕ := 40

/-- `TAG_LEN_MAX`. -/
def tagLenMax : ℕ := 60

/-- The loop of `clean_tags`: what was taken, and what is to come. -/
def cleanTagsFrom (out : List (List ℕ)) : List (List ℕ) → List (List ℕ)
  | [] => out
  | raw :: tags =>
      let text := (stripPoints raw).take tagLenMax
      let out := if text ≠ [] ∧ text ∉ out then out ++ [text] else out
      if tagMax ≤ out.length then out else cleanTagsFrom out tags

/-- `clean_tags` of a list. -/
def cleanTags (tags : List (List ℕ)) : List (List ℕ) := cleanTagsFrom [] tags

/-- The loop of `_patch_tags`: each tag once. -/
def patchTagsFrom (name : String) (out : List (List ℕ)) :
    List (Json.Value × ℕ) → Except Failure (List (List ℕ))
  | [] => .ok out
  | (item, i) :: items => do
      let tag ← required
        (WriteSupport.text item (name ++ "[" ++ toString i ++ "]") false (some tagLenMax))
      patchTagsFrom name (if tag ∈ out then out else out ++ [tag]) items

/-- `_patch_tags`. -/
def patchTags (value : Json.Value) (name : String) : Except Failure (List (List ℕ)) := do
  let items ← WriteSupport.listValue value name
  let out ← patchTagsFrom name [] items.zipIdx
  if tagMax < out.length then
    .error (.refused (name ++ " has " ++ toString out.length ++ " tags; at most " ++
      toString tagMax ++ "."))
  else return out

/-! ## The writers -/

/-- `NOTE_RETIRED`. -/
def noteRetired : String :=
  "note was removed in core 0.43.0 (TD-73): a trade's notes live in the Research journal " ++
    "(POST /research/journal/notes with a ref of type 'trade')."

/-- What a write says of a review; what it leaves out is kept. -/
structure ReviewChanges where
  tagsAdded : Option (List String)
  tagsDropped : Option (List String)
  reviewed : Option Bool

/-- `reviewed_at` after a write: the first confirm stamps it, a reopening clears it. -/
def stamp (now : Instant) (stored : Option Instant) : Option Bool → Option Instant
  | some true => some (stored.getD now)
  | some false => none
  | none => stored

/-- The row where the trade has no review. -/
def ReviewChanges.create (c : ReviewChanges) (now : Instant) (newId tradeId : ℤ) : Review where
  id := newId
  tradeId
  tagsAdded := c.tagsAdded.getD []
  tagsDropped := c.tagsDropped.getD []
  reviewedAt := stamp now none c.reviewed
  createdAt := now
  updatedAt := now

/-- The row where it has one. -/
def ReviewChanges.merge (c : ReviewChanges) (now : Instant) (r : Review) : Review where
  id := r.id
  tradeId := r.tradeId
  tagsAdded := c.tagsAdded.getD r.tagsAdded
  tagsDropped := c.tagsDropped.getD r.tagsDropped
  reviewedAt := stamp now r.reviewedAt c.reviewed
  createdAt := r.createdAt
  updatedAt := now

/-- `INSERT INTO trade_review … ON CONFLICT (trade_id) DO UPDATE`. -/
def RuleTables.putReview (t : RuleTables) (c : ReviewChanges) (now : Instant) (newId tradeId : ℤ) :
    RuleTables :=
  { t with
    reviews := t.reviews.upsert (c.create now newId tradeId) (c.merge now) fun _ => rfl }

/-- The payload of `save_review`: a list or a flag may be missing or null. -/
structure ReviewPayload where
  /-- The key of the field that is gone. -/
  hasNote : Bool
  tagsAdded : Option (List (List ℕ))
  tagsDropped : Option (List (List ℕ))
  reviewed : Option Bool

/-- What `save_review` raises: a refusal, or the driver's error. -/
inductive SaveRaised where
  | invalid (reason : String)
  | integrity (c : Constraint)
  | data
  deriving DecidableEq

section Writers

variable (detail : Detail) (db : RuleDb)

/-- `save_review`: the row, and the tables. -/
def saveReview (now : Instant) (newId tradeId : ℤ) (payload : ReviewPayload) :
    Except SaveRaised (Option Review × RuleDb) := do
  if payload.hasNote then .error (.invalid noteRetired)
  else
    let stored (tags : Option (List (List ℕ))) : Except SaveRaised (Option (List String)) :=
      optionally (fun ts => orError .data ((cleanTags ts).mapM storedText)) tags
    let added ← stored payload.tagsAdded
    let dropped ← stored payload.tagsDropped
    if fitsBigint tradeId = false then .error .data
    else
      match (db.tables.putReview ⟨added, dropped, payload.reviewed⟩ now newId tradeId).check with
      | .error c => .error (.integrity c)
      | .ok after => return (after.tables.reviews.get tradeId, after)

/-- `REVIEW_PATCHABLE`. -/
def reviewPatchable : List String := ["tags_added_json", "tags_dropped_json", "reviewed"]

/-- What a patch names, checked. -/
structure CheckedReview where
  tagsAdded : Option (List (List ℕ))
  tagsDropped : Option (List (List ℕ))
  reviewed : Option Bool

/-- The checks of a patch. -/
def checkReviewPatch (fields : Json.Value) : Except Failure CheckedReview := do
  refuseRetired fields "note" noteRetired
  let fields ← checkFields fields reviewPatchable "review"
  let tagsAdded ← sent fields "tags_added_json" fun v => patchTags v "tags_added_json"
  let tagsDropped ← sent fields "tags_dropped_json" fun v => patchTags v "tags_dropped_json"
  let reviewed ← sent fields "reviewed" fun v => WriteSupport.boolean v "reviewed"
  return ⟨tagsAdded, tagsDropped, reviewed⟩

/-- `patch_review`: the row, and the tables. -/
def patchReview (now : Instant) (newId tradeId : ℤ) (fields : Json.Value) :
    Except WriteError (Review × RuleDb) := do
  let what := "the review of trade " ++ toString tradeId
  let changes ← checked (checkReviewPatch fields)
  if db.tables.trades.hasKey tradeId = false then
    .error (.notFound ("No trade " ++ toString tradeId ++ "."))
  else
    let stored (tags : Option (List (List ℕ))) : Except WriteError (Option (List String)) :=
      optionally (fun ts => orError (wrongForm what) (ts.mapM storedText)) tags
    let added ← stored changes.tagsAdded
    let dropped ← stored changes.tagsDropped
    match (db.tables.putReview ⟨added, dropped, changes.reviewed⟩ now newId tradeId).check with
    | .error c => .error (asWriteError detail what .notFound c)
    | .ok after =>
      match after.tables.reviews.get tradeId with
      | none => .error (.failed (what ++ " was written but not returned; nothing was saved."))
      | some row => return (row, after)

end Writers

end Strategy
