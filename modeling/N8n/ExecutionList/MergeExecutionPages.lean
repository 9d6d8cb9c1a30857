import Mathlib.Data.String.Basic
import N8n.Common.IsoDate
import N8n.ExecutionList.ExecutionCursor

/-!
# Merging execution pages

The rows of engine 1.0 have the numerals of integers as identifiers, those of engine 2.0 UUIDs of
version 7. A page is made from a page of each store, and its cursor holds the last row of each store
that is on it. The stores are asked for the rows after the positions of the cursor, with one row
more than the page takes.

Times are in milliseconds. What the store of engine 2.0 reads the text of a time as is a parameter.

## Main definitions

* `ExecutionSummary`, `compareExecutionListItems`: rows and their order
* `mergeExecutionPages`: a page from the pages of the stores
* `Stores`: the rows of both engines
* `listPage`, `walk`: the page for a cursor, and pages until the last one
-/

namespace N8n.ExecutionList

open IsoDate (toISOString)

/-! ## Rows -/

def isHex (c : Char) : Bool :=
  c.isDigit || ('a' ≤ c && c ≤ 'f') || ('A' ≤ c && c ≤ 'F')

def oneOf (cs : List Char) (c : Char) : Bool := cs.contains c

def uuidV7Pattern : List (Char → Bool) :=
  List.replicate 8 isHex ++ [oneOf ['-']] ++ List.replicate 4 isHex ++ [oneOf ['-'], oneOf ['7']] ++
    List.replicate 3 isHex ++ [oneOf ['-'], oneOf ['8', '9', 'a', 'b', 'A', 'B']] ++
    List.replicate 3 isHex ++ [oneOf ['-']] ++ List.replicate 12 isHex

/-- A text whose characters are those of a pattern. -/
def isMatch : List (Char → Bool) → List Char → Bool
  | [], [] => true
  | p :: ps, c :: cs => p c && isMatch ps cs
  | _, _ => false

def isExecutionIdV2 (id : String) : Bool := isMatch uuidV7Pattern id.toList

structure ExecutionSummary where
  id : String
  startedAt : Option ℤ
  createdAt : ℤ
deriving DecidableEq, Repr

namespace ExecutionSummary

def time (row : ExecutionSummary) : ℤ := row.startedAt.getD row.createdAt

end ExecutionSummary

/-- Negative when `a` is listed before `b`. -/
def compareExecutionListItems (a b : ExecutionSummary) : ℤ :=
  if b.time - a.time ≠ 0 then b.time - a.time
  else
    let isAV2Id := a.id.toList.contains '-'
    let isBV2Id := b.id.toList.contains '-'
    if !isAV2Id && !isBV2Id then (number b.id : ℤ) - number a.id
    else if isAV2Id != isBV2Id then (if isAV2Id then -1 else 1)
    else if a.id < b.id then 1
    else if b.id < a.id then -1
    else 0

/-! ## Pages -/

structure ExecutionPage where
  items : List ExecutionSummary
  hasMore : Bool
deriving DecidableEq, Repr

structure MergedPage where
  results : List ExecutionSummary
  nextCursor : Option String
deriving DecidableEq, Repr

def positionOf (row : ExecutionSummary) : ExecutionPosition := ⟨row.id, toISOString row.time⟩

def mergeExecutionPages (pages : List ExecutionPage) (limit : ℕ) (cursor : Option ExecutionCursor) :
    MergedPage :=
  let merged := (pages.flatMap ExecutionPage.items).mergeSort fun a b =>
    compareExecutionListItems a b ≤ 0
  let results := merged.take limit
  let lastIncludedV1 := results.reverse.find? fun row => !isExecutionIdV2 row.id
  let lastIncludedV2 := results.reverse.find? fun row => isExecutionIdV2 row.id
  let nextCursor := cursor.getD .empty
  let nextCursor := match lastIncludedV1 with
    | some row => nextCursor.set .v1 (positionOf row)
    | none => nextCursor
  let nextCursor := match lastIncludedV2 with
    | some row => nextCursor.set .v2 (positionOf row)
    | none => nextCursor
  let hasMore := limit < merged.length || pages.any ExecutionPage.hasMore
  { results
    nextCursor := if hasMore && !results.isEmpty then some (encodeExecutionCursor nextCursor)
      else none }

/-! ## Stores -/

/-- The rows of the two engines. Identifiers are unique in each of them, and an execution of engine
1.0 with a higher identifier was not started earlier. -/
structure Stores where
  v1 : List ExecutionSummary
  v2 : List ExecutionSummary
  v1_id : ∀ row ∈ v1, ∃ n : ℕ, 0 < n ∧ row.id = n.repr
  v2_id : ∀ row ∈ v2, isExecutionIdV2 row.id = true
  v1_nodup : (v1.map ExecutionSummary.id).Nodup
  v2_nodup : (v2.map ExecutionSummary.id).Nodup
  agree : ∀ a ∈ v1, ∀ b ∈ v1, number a.id < number b.id → a.time ≤ b.time

/-- The page that a store makes of the rows it was asked for, one more than `limit`. -/
def storePage (limit : ℕ) (rows : List ExecutionSummary) : ExecutionPage :=
  let rows := rows.take (limit + 1)
  ⟨rows.take limit, limit < rows.length⟩

section Walk

variable (z : Platform) (instant : String → ℤ) (stores : Stores) (limit : ℕ)

/-- The rows of engine 1.0 that were made before a position, newest first. -/
def v1Page (cursor : ExecutionCursor) : ExecutionPage :=
  storePage limit <| (stores.v1.mergeSort fun a b => number b.id ≤ number a.id).filter fun row =>
    match cursor.get? .v1 with
    | none => true
    | some before => number row.id < number before.id

/-- The rows of engine 2.0 before a position, in the order of their times and identifiers. -/
def v2Page (cursor : ExecutionCursor) : ExecutionPage :=
  storePage limit <| (stores.v2.mergeSort fun a b =>
      b.time < a.time || (b.time = a.time && b.id ≤ a.id)).filter fun row =>
    match cursor.get? .v2 with
    | none => true
    | some before => row.time < instant before.timestamp ||
        (row.time = instant before.timestamp && row.id < before.id)

def listPage (value : Option String) : Except BadRequestError MergedPage :=
  (parseExecutionCursor z value).map fun cursor =>
    mergeExecutionPages [v1Page stores limit cursor, v2Page instant stores limit cursor] limit
      (some cursor)

/-- The pages from a cursor on, if the last one is among the first `n` and no cursor is refused. -/
def walk : ℕ → Option String → Option (List MergedPage)
  | 0, _ => none
  | n + 1, value =>
    match listPage z instant stores limit value with
    | .error _ => none
    | .ok page =>
      match page.nextCursor with
      | none => some [page]
      | some next => (walk n (some next)).map (page :: ·)

end Walk

end N8n.ExecutionList
