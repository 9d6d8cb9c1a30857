import N8n.Common.JsString
import N8n.Foundations.Failure
import N8n.Foundations.Remaining
import Mathlib.Data.Fintype.Basic

/-!
# Values as JSON

`toJsonValue` makes a JSON value of any value. It keeps the objects that it is converting in a set,
and puts a marker in place of one that it meets again. Arrays are not in the set: an array that
holds itself is converted within itself, and so on until the stack overflows.

## Main definitions

* `Value`, `Node`: a graph of values; arrays and objects are nodes and may be shared
* `toJsonValue`: the conversion, on a stack with this much room
* `Unfolds`: what the conversion is for
* `IsRegular`: nothing that the conversion comes to is an array which is being converted, a hole of
  an array or a date without a time

## Main results

* `converts_iff`: the conversion does what it is for exactly on these
* `not_converts`: an array that holds itself
-/

namespace N8n.JsonUtils

open Failure Remaining

/-! ## The conversion -/

/-- A value: numbers of a type `ν`, and references to the nodes of a graph. -/
inductive Value (ν ρ : Type)
  | null
  | undefined
  | function
  | symbol
  | string (text : JsString)
  | boolean (value : Bool)
  | number (value : ν)
  /-- `NaN` or an infinity. -/
  | nonFinite
  | bigint (text : JsString)
  | buffer (text : JsString)
  | date (isoString : Option JsString)
  | error (name message : JsString)
  /-- A place of an array that has no element. -/
  | hole
  | container (ref : ρ)

inductive Node (ν ρ : Type)
  | array (elements : List (Value ν ρ))
  | object (entries : List (JsString × Value ν ρ))

/-- What the conversion leads to: a JSON value, or one with holes. -/
inductive Converted (ν : Type)
  | null
  | string (text : JsString)
  | boolean (value : Bool)
  | number (value : ν)
  | array (elements : List (Converted ν))
  | object (entries : List (JsString × Converted ν))
  | hole

def circularMarker : JsString := js "[Circular]".toList

/-- What the conversion throws. -/
inductive RangeError
  | invalidTimeValue
  | maximumCallStackSizeExceeded

section Code

variable {ν ρ : Type} [DecidableEq ρ] (graph : ρ → Node ν ρ)

/-- The conversion with room for `stack` calls, where the objects in `seen` are being converted. -/
def toJsonValue : ℕ → List ρ → Value ν ρ → Except RangeError (Converted ν)
  | 0, _, _ => .error .maximumCallStackSizeExceeded
  | stack + 1, seen, value =>
    match value with
    | .null => .ok .null
    | .string text => .ok (.string text)
    | .boolean value => .ok (.boolean value)
    | .number value => .ok (.number value)
    | .nonFinite => .ok .null
    | .undefined => .ok .null
    | .function => .ok .null
    | .symbol => .ok .null
    | .bigint text => .ok (.string text)
    | .buffer text => .ok (.string text)
    | .date none => .error .invalidTimeValue
    | .date (some isoString) => .ok (.string isoString)
    | .error name message =>
      .ok (.object [(js "name".toList, .string name), (js "message".toList, .string message)])
    -- `map` leaves a hole a hole
    | .hole => .ok .hole
    | .container ref =>
      match graph ref with
      | .array elements => do
        let converted ← elements.mapM (toJsonValue stack seen)
        return .array converted
      | .object entries =>
        if ref ∈ seen then .ok (.string circularMarker)
        else do
          let converted ← (entries.map Prod.snd).mapM (toJsonValue stack (ref :: seen))
          return .object ((entries.map Prod.fst).zip converted)

attribute [grind =] toJsonValue

end Code

/-! ## What the conversion is for -/

def Value.leafJson {ν ρ : Type} : Value ν ρ → Option (Converted ν)
  | .null | .nonFinite | .undefined | .function | .symbol | .hole => some .null
  | .string text | .bigint text | .buffer text => some (.string text)
  | .boolean value => some (.boolean value)
  | .number value => some (.number value)
  | .date isoString => isoString.map .string
  | .error name message =>
    some (.object [(js "name".toList, .string name), (js "message".toList, .string message)])
  | .container _ => none

namespace Node

variable {ν ρ : Type}

def values : Node ν ρ → List (Value ν ρ)
  | array elements => elements
  | object entries => entries.map Prod.snd

def build (converted : List (Converted ν)) : Node ν ρ → Converted ν
  | array _ => .array converted
  | object entries => .object ((entries.map Prod.fst).zip converted)

def IsObject : Node ν ρ → Prop
  | array _ => False
  | object _ => True

instance : DecidablePred (@IsObject ν ρ)
  | array _ => .isFalse id
  | object _ => .isTrue trivial

end Node

/-- Only JSON values. -/
inductive IsJson {ν : Type} : Converted ν → Prop
  | null : IsJson .null
  | string (text : JsString) : IsJson (.string text)
  | boolean (value : Bool) : IsJson (.boolean value)
  | number (value : ν) : IsJson (.number value)
  | array {elements : List (Converted ν)} (h : ∀ e ∈ elements, IsJson e) : IsJson (.array elements)
  | object {entries : List (JsString × Converted ν)} (h : ∀ e ∈ entries, IsJson e.2) :
      IsJson (.object entries)

section Purpose

variable {ν ρ : Type} (graph : ρ → Node ν ρ)

/-- The value in full, within the containers on the path. A container on the path becomes the
marker. -/
inductive Unfolds : List ρ → Value ν ρ → Converted ν → Prop
  | leaf {path : List ρ} {value : Value ν ρ} {json : Converted ν} (h : value.leafJson = some json) :
      Unfolds path value json
  | circular {path : List ρ} {ref : ρ} (h : ref ∈ path) :
      Unfolds path (.container ref) (.string circularMarker)
  | container {path : List ρ} {ref : ρ} {converted : List (Converted ν)} (href : ref ∉ path)
      (hlength : converted.length = (graph ref).values.length)
      (h : ∀ (i : ℕ) (value : Value ν ρ) (json : Converted ν), (graph ref).values[i]? = some value →
        converted[i]? = some json → Unfolds (ref :: path) value json) :
      Unfolds path (.container ref) ((graph ref).build converted)

inductive Reaches (path : List ρ) (value : Value ν ρ) : List ρ → Value ν ρ → Prop
  | refl : Reaches path value path value
  | step {path' : List ρ} {ref : ρ} {child : Value ν ρ}
      (h : Reaches path value path' (.container ref)) (href : ref ∉ path')
      (hchild : child ∈ (graph ref).values) :
      Reaches path value (ref :: path') child

def IsSound (path : List ρ) : Value ν ρ → Prop
  | .date isoString => isoString ≠ none
  | .hole => False
  | .container ref => ref ∈ path → (graph ref).IsObject
  | _ => True

/-- Nothing that the conversion comes to is an array that is being converted, a hole or a date
without a time. -/
def IsRegular (path : List ρ) (value : Value ν ρ) : Prop :=
  ∀ path' value', Reaches graph path value path' value' → IsSound graph path' value'

/-- What the conversion is for: it ends with JSON, which is the value in full except for the
references back to a container that is being converted. -/
def Converts [DecidableEq ρ] (value : Value ν ρ) : Prop :=
  ∃ json, (∃ room, ∀ stack ≥ room, toJsonValue graph stack [] value = .ok json) ∧ IsJson json ∧
    Unfolds graph [] value json

end Purpose

/-! ## One value -/

section Steps

variable {ν ρ : Type} {graph : ρ → Node ν ρ} {path : List ρ} {ref : ρ} {value : Value ν ρ}
  {json : Converted ν} {converted : List (Converted ν)} {stack : ℕ}

theorem Node.build_inj {node : Node ν ρ} {converted' : List (Converted ν)}
    (hlength : converted.length = node.values.length)
    (hlength' : converted'.length = node.values.length)
    (h : node.build converted = node.build converted') : converted = converted' := by
  cases node with
  | array elements => exact Converted.array.inj h
  | object entries =>
    have hzip := congrArg (List.map Prod.snd) (Converted.object.inj h)
    simp only [Node.values, List.length_map] at hlength hlength'
    rwa [List.map_snd_zip (by simp [hlength]), List.map_snd_zip (by simp [hlength'])] at hzip

theorem Unfolds.of_forall₂ (href : ref ∉ path)
    (h : List.Forall₂ (Unfolds graph (ref :: path)) (graph ref).values converted) :
    Unfolds graph path (.container ref) ((graph ref).build converted) := by
  obtain ⟨hlength, hget⟩ := List.forall₂_iff_get.mp h
  refine .container href hlength.symm fun i value json hvalue hjson => ?_
  obtain ⟨hi, rfl⟩ := List.getElem?_eq_some_iff.mp hvalue
  obtain ⟨hi', rfl⟩ := List.getElem?_eq_some_iff.mp hjson
  exact hget i hi hi'

theorem Unfolds.exists_forall₂ (href : ref ∉ path) (h : Unfolds graph path (.container ref) json) :
    ∃ converted, List.Forall₂ (Unfolds graph (ref :: path)) (graph ref).values converted ∧
      json = (graph ref).build converted := by
  cases h with
  | leaf h => cases h
  | circular h => exact absurd h href
  | container href hlength h =>
    refine ⟨_, List.forall₂_iff_get.mpr ⟨hlength.symm, fun i hi hi' => ?_⟩, rfl⟩
    exact h i _ _ (List.getElem?_eq_getElem hi) (List.getElem?_eq_getElem hi')

theorem isJson_build (h : ∀ json ∈ converted, IsJson json) (node : Node ν ρ) :
    IsJson (node.build converted) := by
  cases node with
  | array elements => exact .array h
  | object entries => exact .object fun e he => h _ (List.of_mem_zip he).2

theorem Unfolds.isJson (h : Unfolds graph path value json) : IsJson json := by
  induction h with
  | @leaf path value json h =>
    cases value
    case date isoString =>
      obtain ⟨text, -, rfl⟩ := Option.map_eq_some_iff.mp h
      exact .string text
    case container => cases h
    case error name message =>
      cases h
      apply IsJson.object
      rintro e he
      obtain rfl | rfl : e = _ ∨ e = _ := by simpa using he
      · exact .string name
      · exact .string message
    all_goals
      cases h
      constructor
  | circular => exact .string _
  | @container path ref converted href hlength h ih =>
    refine isJson_build (fun json hjson => ?_) _
    obtain ⟨i, hi, rfl⟩ := List.getElem_of_mem hjson
    exact ih i _ _ (List.getElem?_eq_getElem (hlength ▸ hi)) (List.getElem?_eq_getElem hi)

variable [DecidableEq ρ]

/-- The objects on the path: what the conversion keeps in its set. -/
def seenObjects (graph : ρ → Node ν ρ) (path : List ρ) : List ρ :=
  path.filter fun ref => (graph ref).IsObject

/-- A container that is not on the path is converted by its children. -/
theorem toJsonValue_container (href : ref ∉ path) :
    toJsonValue graph (stack + 1) (seenObjects graph path) (.container ref) =
      (fun converted => (graph ref).build converted) <$>
        (graph ref).values.mapM (toJsonValue graph stack (seenObjects graph (ref :: path))) := by
  have hseen : ref ∉ seenObjects graph path := fun h => href (List.mem_of_mem_filter h)
  simp only [toJsonValue]
  cases hnode : graph ref with
  | array elements =>
    have hcons : seenObjects graph (ref :: path) = seenObjects graph path :=
      List.filter_cons_of_neg (by simp [hnode, Node.IsObject])
    rw [hcons]
    rfl
  | object entries =>
    have hcons : seenObjects graph (ref :: path) = ref :: seenObjects graph path :=
      List.filter_cons_of_pos (by simp [hnode, Node.IsObject])
    rw [hcons]
    exact if_neg hseen

/-- An object that is on the path is converted into the marker. -/
theorem toJsonValue_circular (href : ref ∈ path) (hobject : (graph ref).IsObject) :
    toJsonValue graph (stack + 1) (seenObjects graph path) (.container ref) =
      .ok (.string circularMarker) := by
  have hseen : ref ∈ seenObjects graph path := List.mem_filter.mpr ⟨href, decide_eq_true hobject⟩
  simp only [toJsonValue]
  cases hnode : graph ref with
  | array elements =>
    rw [hnode] at hobject
    exact hobject.elim
  | object entries => exact if_pos hseen

end Steps

/-! ## Where the conversion does what it is for -/

section Graph

variable {ν ρ : Type} [DecidableEq ρ] {graph : ρ → Node ν ρ} {path path' : List ρ}
  {value value' : Value ν ρ}

/-- What the conversion comes to is converted as it should be if the value it starts with is. -/
theorem Reaches.converted (h : Reaches graph path value path' value') {stack : ℕ}
    {json : Converted ν} (hok : toJsonValue graph stack (seenObjects graph path) value = .ok json)
    (hunfolds : Unfolds graph path value json) :
    ∃ stack' json', toJsonValue graph stack' (seenObjects graph path') value' = .ok json' ∧
      Unfolds graph path' value' json' := by
  induction h with
  | refl => exact ⟨stack, json, hok, hunfolds⟩
  | @step path' ref child h href hchild ih =>
    obtain ⟨stack', json', hok', hunfolds'⟩ := ih
    obtain ⟨converted, hall, rfl⟩ := hunfolds'.exists_forall₂ href
    cases stack' with
    | zero => cases hok'
    | succ stack' =>
      rw [toJsonValue_container href, map_eq_ok] at hok'
      obtain ⟨converted', hconverted, hbuild⟩ := hok'
      have hconverted := mapM_eq_ok_iff.mp hconverted
      obtain rfl := Node.build_inj hconverted.length_eq.symm hall.length_eq.symm hbuild
      -- the child is at one place in both lists
      obtain ⟨i, hi, rfl⟩ := List.getElem_of_mem hchild
      have hi' : i < converted'.length := hall.length_eq ▸ hi
      exact ⟨stack', converted'[i], (List.forall₂_iff_get.mp hconverted).2 i hi hi',
        (List.forall₂_iff_get.mp hall).2 i hi hi'⟩

/-- A value that is converted as it should be is one that can be dealt with. -/
theorem isSound_of_converted {stack : ℕ} {json : Converted ν}
    (hok : toJsonValue graph stack (seenObjects graph path) value = .ok json)
    (hunfolds : Unfolds graph path value json) : IsSound graph path value := by
  cases stack with
  | zero => cases hok
  | succ stack =>
    cases value
    case date isoString =>
      rintro rfl
      cases hok
    case hole =>
      cases hok
      cases hunfolds.isJson
    case container ref =>
      intro hmem
      cases hunfolds with
      | leaf h => cases h
      | container href => exact absurd hmem href
      | circular h =>
        simp only [toJsonValue] at hok
        cases hnode : graph ref with
        | object entries => trivial
        | array elements =>
          rw [hnode] at hok
          obtain ⟨converted, -, hbuild⟩ := map_eq_ok.mp hok
          cases hbuild
    all_goals trivial

omit [DecidableEq ρ] in
theorem IsRegular.child {ref : ρ} (h : IsRegular graph path (.container ref)) (href : ref ∉ path)
    {child : Value ν ρ} (hchild : child ∈ (graph ref).values) :
    IsRegular graph (ref :: path) child := by
  intro path' value' hreach
  apply h
  induction hreach with
  | refl => exact .step .refl href hchild
  | step _ href' hchild' ih => exact .step ih href' hchild'

/-- A leaf is converted by itself. -/
theorem toJsonValue_leaf (hsound : IsSound graph path value)
    (hleaf : ∀ ref, value ≠ .container ref) :
    ∃ json, value.leafJson = some json ∧
      ∀ stack ≥ 1, toJsonValue graph stack (seenObjects graph path) value = .ok json := by
  cases value
  case date isoString =>
    obtain ⟨text, rfl⟩ := Option.ne_none_iff_exists'.mp hsound
    exact ⟨_, rfl, fun | _ + 1, _ => rfl⟩
  case hole => exact hsound.elim
  case container ref => exact absurd rfl (hleaf ref)
  all_goals exact ⟨_, rfl, fun | _ + 1, _ => rfl⟩

/-- Rooms that suffice for each value of a list suffice together. -/
theorem exists_room {values : List (Value ν ρ)} {seen : List ρ} {P : Value ν ρ → Converted ν → Prop}
    (h : ∀ value ∈ values, ∃ json, (∃ room, ∀ stack ≥ room,
      toJsonValue graph stack seen value = .ok json) ∧ P value json) :
    ∃ converted,
      (∃ room, ∀ stack ≥ room, values.mapM (toJsonValue graph stack seen) = .ok converted) ∧
      List.Forall₂ P values converted := by
  induction values with
  | nil => exact ⟨[], ⟨0, fun _ _ => rfl⟩, .nil⟩
  | cons value values ih =>
    obtain ⟨json, ⟨room, hroom⟩, hP⟩ := h value List.mem_cons_self
    obtain ⟨converted, ⟨room', hroom'⟩, hPs⟩ := ih fun v hv => h v (List.mem_cons_of_mem _ hv)
    refine ⟨json :: converted, ⟨max room room', fun stack hstack => ?_⟩, .cons hP hPs⟩
    rw [mapM_eq_ok_iff]
    exact .cons (hroom stack (le_of_max_le_left hstack))
      (mapM_eq_ok_iff.mp (hroom' stack (le_of_max_le_right hstack)))

/-- By induction on the number of the containers that are not on the path. -/
theorem IsRegular.converts [Fintype ρ] (h : IsRegular graph path value) :
    ∃ json, (∃ room, ∀ stack ≥ room,
      toJsonValue graph stack (seenObjects graph path) value = .ok json) ∧
        Unfolds graph path value json := by
  generalize hn : (Finset.univ.filter (· ∉ path)).card = n
  induction n using Nat.strong_induction_on generalizing path value with
  | _ n ih =>
    by_cases hleaf : ∀ ref, value ≠ .container ref
    · obtain ⟨json, hjson, hroom⟩ := toJsonValue_leaf (h _ _ .refl) hleaf
      exact ⟨json, ⟨1, hroom⟩, .leaf hjson⟩
    obtain ⟨ref, rfl⟩ : ∃ ref, value = .container ref := by simpa using hleaf
    by_cases href : ref ∈ path
    · have hobject := h _ _ .refl href
      refine ⟨_, ⟨1, ?_⟩, .circular href⟩
      rintro (_ | stack) hstack
      · exact absurd hstack (by decide)
      · exact toJsonValue_circular href hobject
    · have hless : (Finset.univ.filter (· ∉ ref :: path)).card < n :=
        hn ▸ card_lt_of_seen (fun x hx hmem => hx (List.mem_cons_of_mem _ hmem))
          (Finset.mem_univ ref) href (not_not_intro List.mem_cons_self)
      obtain ⟨converted, ⟨room, hroom⟩, hall⟩ := exists_room fun child hchild =>
        ih _ hless (h.child href hchild) rfl
      refine ⟨_, ⟨room + 1, ?_⟩, .of_forall₂ href hall⟩
      rintro (_ | stack) hstack
      · cases hstack
      · rw [toJsonValue_container href, hroom stack (Nat.le_of_succ_le_succ hstack)]
        rfl

/-- **The conversion does what it is for** exactly if nothing that it comes to is an array which is
being converted, a hole of an array or a date without a time. -/
theorem converts_iff [Fintype ρ] (graph : ρ → Node ν ρ) (value : Value ν ρ) :
    Converts graph value ↔ IsRegular graph [] value := by
  constructor
  · rintro ⟨json, ⟨room, hroom⟩, -, hunfolds⟩ path' value' hreach
    obtain ⟨stack', json', hok', hunfolds'⟩ := hreach.converted (hroom room le_rfl) hunfolds
    exact isSound_of_converted hok' hunfolds'
  · intro h
    obtain ⟨json, hroom, hunfolds⟩ := h.converts
    exact ⟨json, hroom, hunfolds.isJson, hunfolds⟩

end Graph

def selfHolding : Unit → Node Unit Unit := fun _ => .array [.container ()]

/-- It is converted within itself without an end. -/
theorem not_converts : ¬ Converts selfHolding (.container ()) := by
  rintro ⟨json, ⟨room, hroom⟩, -, -⟩
  have herror : ∀ stack, toJsonValue selfHolding stack [] (.container ()) =
      .error .maximumCallStackSizeExceeded := by
    intro stack
    induction stack with
    | zero => rfl
    | succ stack ih => simp only [toJsonValue, selfHolding, List.mapM_cons, ih]; rfl
  have hok := hroom room le_rfl
  rw [herror] at hok
  cases hok

end N8n.JsonUtils
