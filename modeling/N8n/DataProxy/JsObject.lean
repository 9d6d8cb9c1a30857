import N8n.StaticData.ObservableObject
import N8n.Workflows.Connections

/-!
# Objects with properties

A plain object or an array, with values that may refer to objects in whatever way a heap names them.
Two objects that differ in the order of their properties alone have the same view.

## Main definitions

* `JsValue`, `JsObject`: values and objects over a type of references
* `View`: what can be read of an object, the order of its properties aside
* `View.set`, `View.delete`, `View.get`, `View.has`: the operations on it
* `alloc`: the objects of data that a program writes down

## Main results

* `view_set`, `view_delete`, `mem_ownKeys`: the operations on objects in terms of views
* `View.map_set`, `View.map_get`: renaming references commutes with the operations
* `alloc_map`: renamed references, renamed objects
-/

namespace N8n.DataProxy

open StaticData (Primitive Data Fields)
open Workflows (objectPrototypeNames)

variable {ρ τ : Type} {name' : String} {ν : Type}

/-! ## Values -/

/-- A value. What is inherited from a prototype is named, not modelled. -/
inductive JsValue (ρ : Type)
  | primitive (p : Primitive)
  | builtin (ofArray : Bool) (name : String)
  | reference (r : ρ)
  deriving DecidableEq

namespace JsValue

def undefined : JsValue ρ := .primitive .undefined

def map (f : ρ → τ) : JsValue ρ → JsValue τ
  | .primitive p => .primitive p
  | .builtin ofArray name => .builtin ofArray name
  | .reference r => .reference (f r)

@[simp] theorem map_undefined (f : ρ → τ) : (undefined : JsValue ρ).map f = undefined := rfl

theorem map_eq_undefined {f : ρ → τ} {value : JsValue ρ} :
    value.map f = undefined ↔ value = undefined := by
  cases value <;> simp [map, undefined]

end JsValue

/-- The names that an array inherits besides those of every object. -/
def arrayPrototypeNames : List String :=
  ["at", "concat", "copyWithin", "fill", "find", "findIndex", "findLast", "findLastIndex",
    "lastIndexOf", "pop", "push", "reverse", "shift", "unshift", "slice", "sort", "splice",
    "includes", "indexOf", "join", "keys", "entries", "values", "forEach", "filter", "flat",
    "flatMap", "map", "every", "some", "reduce", "reduceRight", "toReversed", "toSorted",
    "toSpliced", "with"]

def inheritedNames (isArray : Bool) : List String :=
  if isArray then arrayPrototypeNames ++ objectPrototypeNames else objectPrototypeNames

def decimal (digits : List Char) : ℕ :=
  digits.foldl (fun n c => 10 * n + (c.toNat - '0'.toNat)) 0

/-- The index that a property of an array is stored under: a number without a leading zero. -/
def arrayIndex (name : String) : Option ℕ :=
  let digits := name.toList
  if digits ≠ [] ∧ digits.all Char.isDigit ∧ (digits.head? = some '0' → digits = ['0']) ∧
      decimal digits < 4294967295 then some (decimal digits) else none

/-- The length that a value stands for, `none` where setting it raises a `RangeError`. A text is
read if it is a decimal number, and an object is refused. -/
def lengthOf : JsValue ρ → Option ℕ
  | .primitive (.number n) =>
    if n.den = 1 ∧ 0 ≤ n ∧ n < 4294967296 then some n.num.toNat else none
  | .primitive .null => some 0
  | .primitive (.bool b) => some (if b then 1 else 0)
  | .primitive (.string text) =>
    let digits := text.toList
    if digits.all Char.isDigit ∧ decimal digits < 4294967296 then some (decimal digits) else none
  | _ => none

theorem lengthOf_map (f : ρ → τ) (value : JsValue ρ) : lengthOf (value.map f) = lengthOf value := by
  cases value with
  | primitive p => cases p <;> rfl
  | builtin ofArray name => rfl
  | reference r => rfl

/-! ## Views -/

/-- What can be read of an object, the order of its properties aside. -/
structure View (ρ : Type) where
  isArray : Bool
  length : ℕ
  get? : String → Option (JsValue ρ)

namespace View

/-- The own property of that name. An array has its length. -/
def own (view : View ρ) (name : String) : Option (JsValue ρ) :=
  if view.isArray ∧ name = "length" then some (.primitive (.number view.length))
  else view.get? name

def get (view : View ρ) (name : String) : JsValue ρ :=
  (view.own name).getD
    (if name ∈ inheritedNames view.isArray then .builtin view.isArray name else .undefined)

def has (view : View ρ) (name : String) : Bool :=
  (view.own name).isSome || name ∈ inheritedNames view.isArray

/-- Set a property, `none` where that raises an error. An array grows with its indices, and loses
elements when its length shrinks. -/
def set (view : View ρ) (name : String) (value : JsValue ρ) : Option (View ρ) :=
  if view.isArray then
    match arrayIndex name with
    | some index =>
      some { view with
        get? := Function.update view.get? name (some value)
        length := max view.length (index + 1) }
    | none =>
      if name = "length" then
        (lengthOf value).map fun length =>
          { view with
            get? := fun name => if (arrayIndex name).any (length ≤ ·) then none else view.get? name
            length }
      else some { view with get? := Function.update view.get? name (some value) }
  else some { view with get? := Function.update view.get? name (some value) }

/-- Delete a property, and whether it could be. -/
def delete (view : View ρ) (name : String) : View ρ × Bool :=
  if view.isArray ∧ name = "length" then (view, false)
  else ({ view with get? := Function.update view.get? name none }, true)

/-- Rename the references. -/
def map (f : ρ → τ) (view : View ρ) : View τ :=
  ⟨view.isArray, view.length, fun name => (view.get? name).map (JsValue.map f)⟩

variable {f g : ρ → τ} {view : View ρ} {name : String} {value : JsValue ρ}

theorem map_congr (h : ∀ name value, view.get? name = some value → value.map f = value.map g) :
    view.map f = view.map g := by
  rw [map, map, mk.injEq]
  refine ⟨rfl, rfl, funext fun name => ?_⟩
  exact Option.map_congr fun value hv => h name value hv

theorem map_own : (view.map f).own name = (view.own name).map (JsValue.map f) := by
  unfold own map
  split_ifs <;> rfl

theorem map_get : (view.map f).get name = (view.get name).map f := by
  rw [get, map_own, get]
  cases view.own name with
  | some value => rfl
  | none =>
    by_cases hname : name ∈ inheritedNames view.isArray
    · simp [map, JsValue.map, hname]
    · simp [map, JsValue.undefined, JsValue.map, hname]

theorem map_has : (view.map f).has name = view.has name := by
  rw [has, map_own, has, Option.isSome_map]
  rfl

theorem map_update : (fun name' => (Function.update view.get? name (some value) name').map
    (JsValue.map f)) = Function.update (view.map f).get? name (some (value.map f)) := by
  funext name'
  by_cases h : name' = name
  · subst h
    simp
  · simp [Function.update_of_ne h, map]

theorem map_set : (view.map f).set name (value.map f) = (view.set name value).map (View.map f) := by
  unfold set
  by_cases harray : view.isArray
  · have hmap : (view.map f).isArray := harray
    rw [if_pos harray, if_pos hmap]
    cases arrayIndex name with
    | some index => simp [map, map_update]
    | none =>
      by_cases hlength : name = "length"
      · simp only [if_pos hlength, lengthOf_map, Option.map_map]
        refine Option.map_congr fun length _ => ?_
        simp only [map, Function.comp_apply, mk.injEq, true_and]
        funext name'
        split_ifs <;> rfl
      · simp [hlength, map, map_update]
  · have hmap : ¬ (view.map f).isArray := harray
    rw [if_neg harray, if_neg hmap]
    simp [map, map_update]

theorem get?_update {get? : String → Option (JsValue ρ)} {value' : JsValue ρ}
    (h : Function.update get? name (some value) name' = some value') :
    (name' = name ∧ value' = value) ∨ get? name' = some value' := by
  rw [Function.update_apply] at h
  split_ifs at h with hname
  · exact .inl ⟨hname, (Option.some.inj h).symm⟩
  · exact .inr h

/-- After a property was set, the others are as they were or gone. -/
theorem get?_of_set {view' : View ρ} {value' : JsValue ρ} (hset : view.set name value = some view')
    (h : view'.get? name' = some value') :
    (name' = name ∧ value' = value) ∨ view.get? name' = some value' := by
  by_cases harray : view.isArray
  · rw [set, if_pos harray] at hset
    cases hindex : arrayIndex name with
    | some index =>
      rw [hindex] at hset
      cases hset
      exact get?_update h
    | none =>
      simp only [hindex] at hset
      split_ifs at hset with hlength
      · obtain ⟨length, -, rfl⟩ := Option.map_eq_some_iff.mp hset
        simp only at h
        split_ifs at h
        exact .inr h
      · cases hset
        exact get?_update h
  · rw [set, if_neg harray] at hset
    cases hset
    exact get?_update h

end View

/-! ## Objects -/

/-- A plain object or an array. The elements of an array are stored under their indices. -/
structure JsObject (ρ : Type) where
  isArray : Bool
  props : OrderedMap String (JsValue ρ)
  length : ℕ
  length_fresh : isArray → props.get? "length" = none
  /-- An array is longer than its indices. -/
  index_lt : isArray → ∀ name index, arrayIndex name = some index → props.get? name ≠ none →
    index < length

def deleteAll {ν : Type} (props : OrderedMap String ν) (names : List String) :
    OrderedMap String ν :=
  names.foldl OrderedMap.delete props

theorem get?_deleteAll (props : OrderedMap String ν) (names : List String)
    (name : String) : (deleteAll props names).get? name =
      if name ∈ names then none else props.get? name := by
  induction names generalizing props with
  | nil => rfl
  | cons first names ih =>
    rw [deleteAll, List.foldl_cons, ← deleteAll, ih, OrderedMap.get?_delete]
    by_cases h : name = first
    · simp [h]
    · simp [h]

/-- The stored indices from `length` on. -/
def beyond {ν : Type} (props : OrderedMap String ν) (length : ℕ) : List String :=
  props.keys.filter fun name => (arrayIndex name).any (length ≤ ·)

namespace JsObject

def empty (isArray : Bool) : JsObject ρ where
  isArray
  props := .empty
  length := 0
  length_fresh _ := rfl
  index_lt _ _ _ _ h := absurd rfl h

def view (object : JsObject ρ) : View ρ := ⟨object.isArray, object.length, object.props.get?⟩

def store (object : JsObject ρ) (name : String) (value : JsValue ρ)
    (h : ¬ (object.isArray ∧ name = "length")) : JsObject ρ where
  isArray := object.isArray
  props := object.props.set name value
  length := if object.isArray then
    (arrayIndex name).elim object.length fun index => max object.length (index + 1)
    else object.length
  length_fresh harray := by
    rw [OrderedMap.get?_set_of_ne fun hname => h ⟨harray, hname.symm⟩]
    exact object.length_fresh harray
  index_lt harray name' index hindex hget := by
    rw [if_pos harray]
    rw [OrderedMap.get?_set] at hget
    split_ifs at hget with hname
    · rw [← hname, hindex, Option.elim_some]
      exact Nat.lt_of_lt_of_le (Nat.lt_succ_self index) (Nat.le_max_right _ _)
    · have hlt := object.index_lt harray name' index hindex hget
      cases arrayIndex name with
      | none => exact hlt
      | some _ => exact hlt.trans_le (Nat.le_max_left _ _)

/-- Shrink or grow an array. -/
def resize (object : JsObject ρ) (length : ℕ) : JsObject ρ where
  isArray := object.isArray
  props := deleteAll object.props (beyond object.props length)
  length
  length_fresh harray := by
    rw [get?_deleteAll, object.length_fresh harray, ite_self]
  index_lt harray name index hindex hget := by
    rw [get?_deleteAll] at hget
    split_ifs at hget with hname
    · exact absurd rfl hget
    · by_contra hle
      have hkey : name ∈ object.props.keys := by
        by_contra hkey
        exact hget (OrderedMap.get?_eq_none.mpr hkey)
      exact hname (List.mem_filter.mpr ⟨hkey, by simpa [hindex] using hle⟩)

/-- Set a property, `none` where that raises an error. -/
def set (object : JsObject ρ) (name : String) (value : JsValue ρ) : Option (JsObject ρ) :=
  if h : object.isArray ∧ name = "length" then (lengthOf value).map object.resize
  else some (object.store name value h)

/-- Delete a property, and whether it could be. -/
def delete (object : JsObject ρ) (name : String) : JsObject ρ × Bool :=
  if object.isArray ∧ name = "length" then (object, false)
  else
    ({ object with
      props := object.props.delete name
      length_fresh := fun harray => by
        rw [OrderedMap.get?_delete, object.length_fresh harray, ite_self]
      index_lt := fun harray name' index hindex hget => by
        rw [OrderedMap.get?_delete] at hget
        split_ifs at hget with hname
        · exact absurd rfl hget
        · exact object.index_lt harray name' index hindex hget }, true)

def ownKeys (object : JsObject ρ) : List String :=
  object.props.keys ++ if object.isArray then ["length"] else []

variable {object : JsObject ρ} {name : String} {value : JsValue ρ}

theorem get?_set_eq_update {props : OrderedMap String ν} {value : ν} :
    (props.set name value).get? = Function.update props.get? name (some value) := by
  funext name'
  rw [OrderedMap.get?_set, Function.update_apply]

theorem get?_delete_eq_update {props : OrderedMap String ν} :
    (props.delete name).get? = Function.update props.get? name none := by
  funext name'
  rw [OrderedMap.get?_delete, Function.update_apply]

theorem get?_resize {length : ℕ} : (object.resize length).props.get? =
    fun name => if (arrayIndex name).any (length ≤ ·) then none else object.props.get? name := by
  funext name
  have hmem : name ∈ beyond object.props length ↔
      name ∈ object.props.keys ∧ (arrayIndex name).any (length ≤ ·) := List.mem_filter
  rw [resize, get?_deleteAll]
  by_cases hindex : (arrayIndex name).any (length ≤ ·)
  · by_cases hname : name ∈ object.props.keys
    · rw [if_pos (hmem.mpr ⟨hname, hindex⟩), if_pos hindex]
    · rw [if_neg fun h => hname (hmem.mp h).1, if_pos hindex]
      exact OrderedMap.get?_eq_none.mpr hname
  · rw [if_neg fun h => hindex (hmem.mp h).2, if_neg hindex]

theorem arrayIndex_length : arrayIndex "length" = none := by decide

/-- Setting in terms of views. -/
theorem view_set : (object.set name value).map view = object.view.set name value := by
  by_cases harray : object.isArray
  · have hview : object.view.isArray := harray
    by_cases hname : name = "length"
    · subst hname
      rw [set, dif_pos ⟨harray, rfl⟩, View.set, if_pos hview, arrayIndex_length, Option.map_map]
      simp only [if_true]
      refine Option.map_congr fun length _ => ?_
      rw [Function.comp_apply, view, get?_resize]
      rfl
    · rw [set, dif_neg fun h => hname h.2, View.set, if_pos hview]
      cases hindex : arrayIndex name with
      | some index => simp [view, store, get?_set_eq_update, harray, hindex]
      | none => simp [view, store, get?_set_eq_update, harray, hindex, hname]
  · have hview : ¬ object.view.isArray := harray
    rw [set, dif_neg fun h => harray h.1, View.set, if_neg hview]
    simp [view, store, get?_set_eq_update, harray]

theorem get?_of_set {object' : JsObject ρ} {value' : JsValue ρ}
    (hset : object.set name value = some object') (h : object'.props.get? name' = some value') :
    (name' = name ∧ value' = value) ∨ object.props.get? name' = some value' := by
  have hview : object.view.set name value = some object'.view := by
    rw [← view_set, hset, Option.map_some]
  exact View.get?_of_set hview h

theorem view_delete : (object.delete name).map view id = object.view.delete name := by
  unfold delete View.delete
  by_cases h : object.isArray ∧ name = "length"
  · have hview : object.view.isArray ∧ name = "length" := h
    rw [if_pos h, if_pos hview]
    rfl
  · have hview : ¬ (object.view.isArray ∧ name = "length") := h
    rw [if_neg h, if_neg hview]
    simp [view, get?_delete_eq_update]

theorem mem_ownKeys : name ∈ object.ownKeys ↔ (object.view.own name).isSome := by
  have hprops : name ∈ object.props.keys ↔ (object.props.get? name).isSome := by
    rw [OrderedMap.mem_keys, Option.isSome_iff_exists]
  rw [ownKeys, List.mem_append, hprops, View.own]
  by_cases harray : object.isArray
  · have hview : object.view.isArray := harray
    by_cases hname : name = "length"
    · simp [harray, hview, hname]
    · simp [harray, hname, view]
  · simp [harray, view]

theorem nodup_ownKeys : object.ownKeys.Nodup := by
  unfold ownKeys
  split_ifs with harray
  · refine object.props.nodup.append (List.nodup_singleton _) ?_
    rw [List.disjoint_singleton]
    exact OrderedMap.get?_eq_none.mp (object.length_fresh harray)
  · rw [List.append_nil]
    exact object.props.nodup

end JsObject

/-! ## New objects -/

/-- The name that the next field is stored under. The elements of an array are numbered. -/
def JsObject.nextName (object : JsObject ρ) (name : String) : String :=
  if object.isArray then toString object.length else name

section Alloc

variable {α : Type} (plain : ℕ → ρ) (resolve : α → JsValue ρ)

mutual

def alloc (heap : List (JsObject ρ)) : Data α → List (JsObject ρ) × JsValue ρ
  | .primitive p => (heap, .primitive p)
  | .held a => (heap, resolve a)
  | .object isArray fields =>
    let fields := allocFields heap (.empty isArray) fields
    (fields.1 ++ [fields.2], .reference (plain fields.1.length))

def allocFields (heap : List (JsObject ρ)) (object : JsObject ρ) :
    Fields α → List (JsObject ρ) × JsObject ρ
  | .nil => (heap, object)
  | .cons name value rest =>
    let value := alloc heap value
    allocFields value.1 ((object.set (object.nextName name) value.2).getD object) rest

end

end Alloc

section Renaming

variable {α : Type} {f : ρ → τ} {plain : ℕ → ρ} {resolve : α → JsValue ρ} {object' : JsObject τ}

/-- Objects of one heap are those of the other, with the references renamed. -/
def Renamed (f : ρ → τ) (object : JsObject ρ) (object' : JsObject τ) : Prop :=
  object'.view = object.view.map f

theorem Renamed.nextName {object : JsObject ρ} (h : Renamed f object object') (name : String) :
    object'.nextName name = object.nextName name := by
  have harray : object'.isArray = object.isArray := congrArg View.isArray h
  have hlength : object'.length = object.length := congrArg View.length h
  rw [JsObject.nextName, harray, hlength, JsObject.nextName]

theorem Renamed.set {object : JsObject ρ} (h : Renamed f object object') (name : String)
    (value : JsValue ρ) :
    Renamed f ((object.set name value).getD object)
      ((object'.set name (value.map f)).getD object') := by
  have hset : (object'.set name (value.map f)).map JsObject.view =
      ((object.set name value).map JsObject.view).map (View.map f) := by
    rw [JsObject.view_set, JsObject.view_set, h, View.map_set]
  cases hobject : object.set name value with
  | none =>
    rw [hobject, Option.map_none, Option.map_none, Option.map_eq_none_iff] at hset
    rw [hset]
    exact h
  | some new =>
    rw [hobject, Option.map_some, Option.map_some] at hset
    obtain ⟨new', hnew', hview⟩ := Option.map_eq_some_iff.mp hset
    rw [hnew']
    exact hview

mutual

/-- New objects are renamed with their references. -/
theorem alloc_map (heap : List (JsObject ρ)) (heap' : List (JsObject τ))
    (hlength : heap.length = heap'.length) : (data : Data α) →
    ∃ new new', (alloc plain resolve heap data).1 = heap ++ new ∧
      (alloc (f ∘ plain) (fun a => (resolve a).map f) heap' data).1 = heap' ++ new' ∧
      List.Forall₂ (Renamed f) new new' ∧
      (alloc (f ∘ plain) (fun a => (resolve a).map f) heap' data).2 =
        (alloc plain resolve heap data).2.map f
  | .primitive p => ⟨[], [], by simp [alloc], by simp [alloc], .nil, rfl⟩
  | .held a => ⟨[], [], by simp [alloc], by simp [alloc], .nil, rfl⟩
  | .object isArray fields => by
    obtain ⟨new, new', hnew, hnew', hall, hobject⟩ :=
      allocFields_map heap heap' hlength (.empty isArray) (.empty isArray) rfl fields
    refine ⟨_, _, ?_, ?_, List.rel_append hall (.cons hobject .nil), ?_⟩
    · simp only [alloc, hnew, List.append_assoc]
    · simp only [alloc, hnew', List.append_assoc]
    · have hsame : (heap' ++ new').length = (heap ++ new).length := by
        rw [List.length_append, List.length_append, hlength, hall.length_eq]
      simp only [alloc, hnew, hnew', hsame]
      rfl

theorem allocFields_map (heap : List (JsObject ρ)) (heap' : List (JsObject τ))
    (hlength : heap.length = heap'.length) (object : JsObject ρ) (object' : JsObject τ)
    (hobject : Renamed f object object') : (fields : Fields α) →
    ∃ new new', (allocFields plain resolve heap object fields).1 = heap ++ new ∧
      (allocFields (f ∘ plain) (fun a => (resolve a).map f) heap' object' fields).1 =
        heap' ++ new' ∧
      List.Forall₂ (Renamed f) new new' ∧
      Renamed f (allocFields plain resolve heap object fields).2
        (allocFields (f ∘ plain) (fun a => (resolve a).map f) heap' object' fields).2
  | .nil => ⟨[], [], by simp [allocFields], by simp [allocFields], .nil, hobject⟩
  | .cons name value rest => by
    obtain ⟨new, new', hnew, hnew', hall, hvalue⟩ := alloc_map heap heap' hlength value
    have hlength' : (alloc plain resolve heap value).1.length =
        (alloc (f ∘ plain) (fun a => (resolve a).map f) heap' value).1.length := by
      rw [hnew, hnew', List.length_append, List.length_append, hlength, hall.length_eq]
    obtain ⟨rest, rest', hrest, hrest', hall', hobject'⟩ :=
      allocFields_map _ _ hlength' _ _
        (hobject.set (object.nextName name) (alloc plain resolve heap value).2) rest
    simp only [allocFields, hvalue, hobject.nextName]
    refine ⟨_, _, ?_, ?_, List.rel_append hall hall', hobject'⟩
    · rw [hrest, hnew, List.append_assoc]
    · rw [hrest', hnew', List.append_assoc]

end

end Renaming

/-! ## New objects form a tree -/

section Tree

variable {α : Type} {plain : ℕ → ρ} {resolve : α → JsValue ρ}

mutual

def handles : Data α → List α
  | .primitive _ => []
  | .held a => [a]
  | .object _ fields => fieldHandles fields

def fieldHandles : Fields α → List α
  | .nil => []
  | .cons _ value rest => handles value ++ fieldHandles rest

end

def Slot (heap : List (JsObject ρ)) (address : ℕ) (name : String) (value : JsValue ρ) : Prop :=
  ∃ object, heap[address]? = some object ∧ object.props.get? name = some value

/-- What a property of a new object is: held data, or a new object that is under this property
alone. The object that is being filled has no address yet. -/
def NewSlot (plain : ℕ → ρ) (resolve : α → JsValue ρ) (held : List α) (first : ℕ)
    (parent : ℕ → Option ℕ × String) (owner : Option ℕ) (below : ℕ) (name : String)
    (value : JsValue ρ) : Prop :=
  (∃ p, value = .primitive p) ∨ (∃ a ∈ held, value = resolve a) ∨
    ∃ address, value = .reference (plain address) ∧ first ≤ address ∧ address < below ∧
      parent address = (owner, name)

/-- From `first` on the heap has new objects only. -/
def NewFrom (plain : ℕ → ρ) (resolve : α → JsValue ρ) (held : List α) (first : ℕ)
    (parent : ℕ → Option ℕ × String) (heap : List (JsObject ρ)) : Prop :=
  ∀ address name value, first ≤ address → Slot heap address name value →
    NewSlot plain resolve held first parent (some address) address name value

theorem NewSlot.imp {held held' : List α} {first first' below below' : ℕ}
    {parent parent' : ℕ → Option ℕ × String} {owner owner' : Option ℕ} {name : String}
    {value : JsValue ρ} (h : NewSlot plain resolve held first parent owner below name value)
    (hheld : held ⊆ held')
    (hnew : ∀ address, first ≤ address → address < below → parent address = (owner, name) →
      first' ≤ address ∧ address < below' ∧ parent' address = (owner', name)) :
    NewSlot plain resolve held' first' parent' owner' below' name value := by
  rcases h with hp | ⟨a, ha, hv⟩ | ⟨address, hv, hfirst, hbelow, hparent⟩
  · exact .inl hp
  · exact .inr (.inl ⟨a, hheld ha, hv⟩)
  · exact .inr (.inr ⟨address, hv, hnew address hfirst hbelow hparent⟩)

theorem Slot.lt {heap : List (JsObject ρ)} {address : ℕ} {name : String} {value : JsValue ρ}
    (h : Slot heap address name value) : address < heap.length := by
  obtain ⟨object, ho, -⟩ := h
  exact (List.getElem?_eq_some_iff.mp ho).1

theorem slot_append {heap new : List (JsObject ρ)} {address : ℕ} {name : String}
    {value : JsValue ρ} (h : address < heap.length) :
    Slot (heap ++ new) address name value ↔ Slot heap address name value := by
  rw [Slot, List.getElem?_append_left h]
  rfl

theorem get?_set_getD {object : JsObject ρ} {name name' : String} {value value' : JsValue ρ}
    (h : ((object.set name value).getD object).props.get? name' = some value') :
    (name' = name ∧ value' = value) ∨ object.props.get? name' = some value' := by
  cases hset : object.set name value with
  | none =>
    rw [hset] at h
    exact .inr h
  | some object' =>
    rw [hset] at h
    exact JsObject.get?_of_set hset h

mutual

/-- The new objects form a tree, and the last of them is its root. -/
theorem alloc_tree (heap : List (JsObject ρ)) : (data : Data α) → ∃ parent,
    heap <+: (alloc plain resolve heap data).1 ∧
    NewFrom plain resolve (handles data) heap.length parent (alloc plain resolve heap data).1 ∧
    ((∃ p, (alloc plain resolve heap data).2 = .primitive p) ∨
      (∃ a ∈ handles data, (alloc plain resolve heap data).2 = resolve a) ∨
      ∃ address, (alloc plain resolve heap data).2 = .reference (plain address) ∧
        heap.length ≤ address ∧ address + 1 = (alloc plain resolve heap data).1.length)
  | .primitive p =>
    ⟨fun _ => (none, ""), List.prefix_refl _, fun _ _ _ hf hs => absurd hs.lt (not_lt.mpr hf),
      .inl ⟨p, rfl⟩⟩
  | .held a =>
    ⟨fun _ => (none, ""), List.prefix_refl _, fun _ _ _ hf hs => absurd hs.lt (not_lt.mpr hf),
      .inr (.inl ⟨a, List.mem_singleton_self a, rfl⟩)⟩
  | .object isArray fields => by
    obtain ⟨parent, hprefix, hnew, hobject⟩ := allocFields_tree heap.length [] (fun _ => (none, ""))
      heap (.empty isArray) le_rfl (fun _ _ _ hf hs => absurd hs.lt (not_lt.mpr hf))
      (fun _ _ h => by cases h) fields
    set result := allocFields plain resolve heap (.empty isArray) fields with hresult
    -- the object that was filled gets the next address
    refine ⟨fun address => (some ((parent address).1.getD result.1.length), (parent address).2),
      ?_, ?_, .inr (.inr ⟨result.1.length, rfl, hprefix.length_le, by simp [alloc, ← hresult]⟩)⟩
    · exact hprefix.trans (List.prefix_append _ _)
    · intro address name value hfirst hslot
      by_cases haddress : address < result.1.length
      · refine (hnew address name value hfirst ((slot_append haddress).mp hslot)).imp ?_ ?_
        · exact fun _ h => h
        · intro child hc hlt hparent
          exact ⟨hc, hlt, by rw [hparent]; rfl⟩
      · have hlast : address = result.1.length := by
          have := hslot.lt
          simp only [alloc, ← hresult, List.length_append, List.length_singleton] at this
          omega
        subst hlast
        obtain ⟨object, ho, hget⟩ := hslot
        simp only [alloc, ← hresult, List.getElem?_concat_length, Option.some.injEq] at ho
        subst ho
        refine (hobject name value hget).imp (fun _ h => h) ?_
        intro child hc hlt hparent
        exact ⟨hc, hlt, by rw [hparent]; rfl⟩

theorem allocFields_tree (first : ℕ) (held : List α) (parent : ℕ → Option ℕ × String)
    (heap : List (JsObject ρ)) (object : JsObject ρ) (hfirst : first ≤ heap.length)
    (hheap : NewFrom plain resolve held first parent heap)
    (hobject : ∀ name value, object.props.get? name = some value →
      NewSlot plain resolve held first parent none heap.length name value) : (fields : Fields α) →
    ∃ parent', heap <+: (allocFields plain resolve heap object fields).1 ∧
      NewFrom plain resolve (held ++ fieldHandles fields) first parent'
        (allocFields plain resolve heap object fields).1 ∧
      ∀ name value,
        (allocFields plain resolve heap object fields).2.props.get? name = some value →
          NewSlot plain resolve (held ++ fieldHandles fields) first parent' none
            (allocFields plain resolve heap object fields).1.length name value
  | .nil => by
    refine ⟨parent, List.prefix_refl _, ?_, ?_⟩
    · simpa [allocFields, fieldHandles] using hheap
    · simpa [allocFields, fieldHandles] using hobject
  | .cons name value rest => by
    obtain ⟨parent₁, hprefix, hnew, hvalue⟩ := alloc_tree heap value
    set result := alloc plain resolve heap value with hresult
    set parent₂ : ℕ → Option ℕ × String := fun address =>
      if address < heap.length then parent address
      else if address + 1 = result.1.length then (none, object.nextName name)
      else parent₁ address with hparent₂
    have hold : ∀ address, address < heap.length → parent₂ address = parent address :=
      fun address h => if_pos h
    have hmid : ∀ address, heap.length ≤ address → address + 1 ≠ result.1.length →
        parent₂ address = parent₁ address := by
      intro address h h'
      simp only [hparent₂, if_neg (not_lt.mpr h), if_neg h']
    have hheld : held ⊆ held ++ handles value := List.subset_append_left _ _
    have hheap₂ : NewFrom plain resolve (held ++ handles value) first parent₂ result.1 := by
      intro address name' value' hf hslot
      by_cases haddress : address < heap.length
      · -- an object that was there
        obtain ⟨new, hnew'⟩ := hprefix
        rw [← hnew', slot_append haddress] at hslot
        refine (hheap address name' value' hf hslot).imp hheld fun child hc hlt hp => ?_
        exact ⟨hc, hlt, by rw [hold child (hlt.trans haddress), hp]⟩
      · refine (hnew address name' value' (not_lt.mp haddress) hslot).imp
          (List.subset_append_right _ _) fun child hc hlt hp => ?_
        have hlast : child + 1 ≠ result.1.length := by
          have := hslot.lt
          omega
        exact ⟨hfirst.trans hc, hlt, by rw [hmid child hc hlast, hp]⟩
    have hobject₂ : ∀ name' value',
        ((object.set (object.nextName name) result.2).getD object).props.get? name' =
            some value' →
          NewSlot plain resolve (held ++ handles value) first parent₂ none result.1.length
            name' value' := by
      intro name' value' hget
      rcases get?_set_getD hget with ⟨rfl, rfl⟩ | hget
      · rcases hvalue with hp | ⟨a, ha, hv⟩ | ⟨address, hv, hle, hlast⟩
        · exact .inl hp
        · exact .inr (.inl ⟨a, List.mem_append_right _ ha, hv⟩)
        · refine .inr (.inr ⟨address, hv, hfirst.trans hle, by omega, ?_⟩)
          simp only [hparent₂, if_neg (not_lt.mpr hle), if_pos hlast]
      · refine (hobject name' value' hget).imp hheld fun child hc hlt hp => ?_
        exact ⟨hc, hlt.trans_le hprefix.length_le, by rw [hold child hlt, hp]⟩
    obtain ⟨parent', hprefix', hnew', hobject'⟩ := allocFields_tree first (held ++ handles value)
      parent₂ result.1 _ (hfirst.trans hprefix.length_le) hheap₂ hobject₂ rest
    refine ⟨parent', ?_, ?_, ?_⟩
    · simp only [allocFields, ← hresult]
      exact hprefix.trans hprefix'
    · simp only [allocFields, ← hresult, fieldHandles, ← List.append_assoc]
      exact hnew'
    · simp only [allocFields, ← hresult, fieldHandles, ← List.append_assoc]
      exact hobject'

end

end Tree

end N8n.DataProxy
