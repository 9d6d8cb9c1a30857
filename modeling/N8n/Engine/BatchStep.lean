import N8n.Engine.Settlement
import Mathlib

/-!
# The steps of a batch node

On each pass a batch node hands the body of its loop the next items. After the last of them it
passes on what the body returned.

## Main results

* `runBatchStep_passes`: a loop hands out its items once and in order
-/

namespace N8n.Engine

/-- The reads of a batch node: its list, and what came back on the passes before one. -/
structure LoopReader where
  readOriginalItems : Except String JsonValue
  readArrivals : ℕ → Except String (List JsonValue)

def asList (value : JsonValue) (displayName : String) : Except String (List JsonValue) :=
  let error (type : String) :=
    .error (displayName ++ " holds " ++ type ++ ", and a batch node slices a list")
  match value with
  | .null => .ok []
  | .array items => .ok items
  | .bool _ => error "boolean"
  | .number _ => error "number"
  | .string _ => error "string"
  | .object _ => error "object"

def slot (filled : ℕ) (value : List JsonValue) : StepSlots :=
  if filled = doneSlot then [.array value, .null] else [.null, .array value]

/-- The items of all arrivals. -/
def accumulate : List JsonValue → ℕ → Except String (List JsonValue)
  | [], _ => .ok []
  | arrival :: arrivals, index => do
    let items ← asList arrival ("arrival " ++ toString index ++ " of the batch node")
    let rest ← accumulate arrivals (index + 1)
    .ok (items ++ rest)

def runBatchStep (batchSize iteration : ℕ) (reader : LoopReader) : Except String StepSlots := do
  let value ← reader.readOriginalItems
  let originalItems ← asList value "the batch node input"
  let slice := (originalItems.drop (iteration * batchSize)).take batchSize
  if slice.isEmpty then
    let arrivals ← reader.readArrivals iteration
    let accumulated ← accumulate arrivals 0
    .ok (if accumulated.isEmpty then [.null, .null] else slot doneSlot accumulated)
  else .ok (slot loopSlot slice)

/-- The items that a slot holds, none where it is `null`. -/
abbrev Lists (value : JsonValue) (items : List JsonValue) : Prop :=
  ∀ displayName, asList value displayName = .ok items

theorem accumulate_eq {values : List JsonValue} {lists : List (List JsonValue)}
    (h : List.Forall₂ Lists values lists) (index : ℕ) :
    accumulate values index = .ok lists.flatten := by
  induction h generalizing index with
  | nil => rfl
  | cons hhead _ ih =>
    rw [accumulate, hhead, ih]
    rfl

theorem flatten_slices (items : List JsonValue) (batchSize passes : ℕ) :
    ((List.range passes).map fun i => (items.drop (i * batchSize)).take batchSize).flatten =
      items.take (passes * batchSize) := by
  induction passes with
  | zero => simp
  | succ passes ih =>
    rw [List.range_succ, List.map_append, List.flatten_append, ih, Nat.succ_mul, List.take_add]
    simp

/-- What a pass makes of its slice and of what has come back. -/
def passSlots : List JsonValue → List JsonValue → StepSlots
  | [], [] => [.null, .null]
  | [], all => [.array all, .null]
  | slice, _ => [.null, .array slice]

/-- **A batch loop loses nothing**: its passes emit the items once and in order, and the one after
them ends the loop with what came back. -/
theorem runBatchStep_passes {batchSize : ℕ} (hpos : 0 < batchSize) (reader : LoopReader)
    {value items} (hread : reader.readOriginalItems = .ok value) (hvalue : Lists value items)
    {arrival returned : ℕ → _} (harrival : ∀ i, Lists (arrival i) (returned i))
    (harrivals : ∀ i, reader.readArrivals i = .ok ((List.range i).map arrival)) :
    ∃ slice : ℕ → List JsonValue,
      (∀ i, runBatchStep batchSize i reader =
        .ok (passSlots (slice i) ((List.range i).map returned).flatten)) ∧
      (∀ i, slice i ≠ [] ↔ i < items.length ⌈/⌉ batchSize) ∧
      (∀ i, (slice i).length ≤ batchSize) ∧
      ((List.range (items.length ⌈/⌉ batchSize)).map slice).flatten = items := by
  have hcount (i : ℕ) : items.length ⌈/⌉ batchSize ≤ i ↔ items.length ≤ i * batchSize := by
    rw [ceilDiv_le_iff_le_mul hpos, mul_comm]
  refine ⟨fun i => (items.drop (i * batchSize)).take batchSize, fun i => ?_, fun i => ?_, fun i =>
    List.length_take_le .., ?_⟩
  · have hall := accumulate_eq (List.forall₂_map_left_iff.2 (List.forall₂_map_right_iff.2
      (List.forall₂_same.2 fun j (_ : j ∈ List.range i) => harrival j))) 0
    simp only [runBatchStep, hread, harrivals, bind, Except.bind, hvalue, hall]
    cases (items.drop (i * batchSize)).take batchSize with
    | cons item rest => rfl
    | nil => cases ((List.range i).map returned).flatten <;> rfl
  · rw [← not_le, hcount, not_iff_not, List.take_eq_nil_iff, List.drop_eq_nil_iff]
    exact or_iff_right hpos.ne'
  · rw [flatten_slices, List.take_of_length_le ((hcount _).1 le_rfl)]

/-- Three items by two. -/
theorem runBatchStep_passes_three :
    ∃ slice : ℕ → List JsonValue,
      ((List.range (3 ⌈/⌉ 2)).map slice).flatten = [.null, .bool true, .null] := by
  let reader : LoopReader := ⟨.ok (.array [.null, .bool true, .null]), fun i =>
    .ok ((List.range i).map fun _ => .null)⟩
  obtain ⟨slice, -, -, -, h⟩ := runBatchStep_passes Nat.two_pos reader rfl (fun _ => rfl)
    (fun _ _ => rfl) fun _ => rfl
  exact ⟨slice, h⟩

end N8n.Engine
