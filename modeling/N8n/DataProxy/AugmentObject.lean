import N8n.DataProxy.JsObject

/-!
# Augmented objects

An augmented object shows an object that must not change, and keeps what is set and deleted through
it in an overlay. Objects that are read through it are augmented in turn, when they are first read.
An augmented array copies the array on the first change, and augments what is stored in it.

What an augmented object is for is told by a second program: the same operations on a deep copy.

## Main definitions

* `Augmented.Heap`: the objects, and the proxies on them
* `Augmented.Heap.get`, `set`, `delete`, `has`, `ownKeys`: the traps
* `Copy.Heap`: the objects of a deep copy, and of what is stored in it later
* `Operation`, `run`: a program, which names what it holds by the position at which it read it

Dates, regular expressions, binary data and `toJSON` methods do not occur in plain data.
-/

namespace N8n.DataProxy

open StaticData (Primitive Data Fields)

/-- The object at an address. A reference always has one. -/
def objectAt {ρ : Type} (objects : List (JsObject ρ)) (address : ℕ) : JsObject ρ :=
  objects[address]?.getD (.empty false)

namespace Augmented

/-- A reference to an object, or to a proxy. -/
inductive Ref
  | plain (address : ℕ)
  | proxy (index : ℕ)
  deriving DecidableEq

abbrev Value := JsValue Ref

inductive Proxy
  | object (target : ℕ) (newData : OrderedMap String Value) (deletedProperties : List String)
  | array (target : ℕ) (newData : Option (JsObject Ref))

structure Heap where
  objects : List (JsObject Ref)
  proxies : List Proxy

/-- Objects are augmented, and what is a proxy already stays. -/
def Heap.augment (heap : Heap) : Value → Heap × Value
  | .reference (.plain address) =>
    let proxy := if (objectAt heap.objects address).isArray then .array address none
      else .object address .empty []
    ({ heap with proxies := heap.proxies ++ [proxy] }, .reference (.proxy heap.proxies.length))
  | value => (heap, value)

def Heap.setProxy (heap : Heap) (index : ℕ) (proxy : Proxy) : Heap :=
  { heap with proxies := heap.proxies.set index proxy }

def Heap.setObject (heap : Heap) (address : ℕ) (object : JsObject Ref) : Heap :=
  { heap with objects := heap.objects.set address object }

/-! ## The traps -/

/-- Read a property. -/
def Heap.get (heap : Heap) (r : Ref) (key : String) : Heap × Value :=
  match r with
  | .plain address => (heap, (objectAt heap.objects address).view.get key)
  | .proxy index =>
    match heap.proxies[index]? with
    | none => (heap, .undefined)
    | some (.object target newData deletedProperties) =>
      if key = "constructor" then (heap, .builtin false "constructor")
      else if key ∈ deletedProperties then (heap, .undefined)
      else
        match newData.get? key with
        | some value => (heap, value)
        | none =>
          let value := (objectAt heap.objects target).view.get key
          let augmented := heap.augment value
          if augmented.2 = value then (heap, value)
          else
            (augmented.1.setProxy index
              (.object target (newData.set key augmented.2) deletedProperties), augmented.2)
    | some (.array target newData) =>
      if key = "constructor" then (heap, .builtin true "constructor")
      else
        let data := newData.getD (objectAt heap.objects target)
        let value := data.view.get key
        let augmented := heap.augment value
        if augmented.2 = value then (heap, value)
        else
          (augmented.1.setProxy index
            (.array target (some ((data.set key augmented.2).getD data))), augmented.2)

/-- Set a property, and whether no error is raised. -/
def Heap.set (heap : Heap) (r : Ref) (key : String) (value : Value) : Heap × Bool :=
  match r with
  | .plain address =>
    match (objectAt heap.objects address).set key value with
    | none => (heap, false)
    | some object => (heap.setObject address object, true)
  | .proxy index =>
    match heap.proxies[index]? with
    | none => (heap, false)
    | some (.object target newData deletedProperties) =>
      if value = .undefined then
        (heap.setProxy index (.object target (newData.delete key)
          (if (objectAt heap.objects target).view.has key then key :: deletedProperties
            else deletedProperties)), true)
      else
        (heap.setProxy index (.object target (newData.set key value)
          (deletedProperties.filter (· ≠ key))), true)
    | some (.array target newData) =>
      let data := newData.getD (objectAt heap.objects target)
      let augmented := heap.augment value
      match data.set key augmented.2 with
      | none => (augmented.1.setProxy index (.array target (some data)), false)
      | some new => (augmented.1.setProxy index (.array target (some new)), true)

/-- Delete a property, and whether it could be. -/
def Heap.delete (heap : Heap) (r : Ref) (key : String) : Heap × Bool :=
  match r with
  | .plain address =>
    let deleted := (objectAt heap.objects address).delete key
    (heap.setObject address deleted.1, deleted.2)
  | .proxy index =>
    match heap.proxies[index]? with
    | none => (heap, false)
    | some (.object target newData deletedProperties) =>
      (heap.setProxy index (.object target (newData.delete key)
        (if ((objectAt heap.objects target).view.own key).isSome then key :: deletedProperties
          else deletedProperties)), true)
    | some (.array target newData) =>
      let deleted := (newData.getD (objectAt heap.objects target)).delete key
      (heap.setProxy index (.array target (some deleted.1)), deleted.2)

def Heap.has (heap : Heap) (r : Ref) (key : String) : Bool :=
  match r with
  | .plain address => (objectAt heap.objects address).view.has key
  | .proxy index =>
    match heap.proxies[index]? with
    | none => false
    | some (.object target newData deletedProperties) =>
      if key ∈ deletedProperties then false
      else if (newData.get? key).isSome then true
      else (objectAt heap.objects target).view.has key
    | some (.array target newData) =>
      (newData.getD (objectAt heap.objects target)).view.has key

def Heap.ownKeys (heap : Heap) (r : Ref) : List String :=
  match r with
  | .plain address => (objectAt heap.objects address).ownKeys
  | .proxy index =>
    match heap.proxies[index]? with
    | none => []
    | some (.object target newData deletedProperties) =>
      ((objectAt heap.objects target).ownKeys ++ newData.keys).eraseDups.filter
        (· ∉ deletedProperties)
    | some (.array target newData) => (newData.getD (objectAt heap.objects target)).ownKeys

/-- The augmented object of plain data, which a program holds to begin with. -/
def initial (base : Fields Empty) : Heap × List Value :=
  let objects := alloc Ref.plain Empty.elim [] (.object false base)
  let augmented := Heap.augment ⟨objects.1, []⟩ objects.2
  (augmented.1, [augmented.2])

end Augmented

/-! ## The deep copy -/

namespace Copy

abbrev Value := JsValue ℕ

/-- The objects of the copy and those that are stored in it later. An object that is stored in an
array of the copy is part of the copy, others keep to themselves. -/
structure Heap where
  objects : List (JsObject ℕ)
  copied : ℕ → Bool

def Heap.get (heap : Heap) (address : ℕ) (key : String) : Heap × Value :=
  (heap, (objectAt heap.objects address).view.get key)

def Heap.setObject (heap : Heap) (address : ℕ) (object : JsObject ℕ) : Heap :=
  { heap with objects := heap.objects.set address object }

/-- Set a property. Setting `undefined` on an object of the copy counts as deletion. -/
def Heap.set (heap : Heap) (address : ℕ) (key : String) (value : Value) : Heap × Bool :=
  let object := objectAt heap.objects address
  if heap.copied address ∧ ¬ object.isArray ∧ value = .undefined then
    (heap.setObject address (object.delete key).1, true)
  else
    match object.set key value with
    | none => (heap, false)
    | some new => (heap.setObject address new, true)

def Heap.delete (heap : Heap) (address : ℕ) (key : String) : Heap × Bool :=
  let deleted := (objectAt heap.objects address).delete key
  (heap.setObject address deleted.1, deleted.2)

def Heap.has (heap : Heap) (address : ℕ) (key : String) : Bool :=
  (objectAt heap.objects address).view.has key

def Heap.ownKeys (heap : Heap) (address : ℕ) : List String :=
  (objectAt heap.objects address).ownKeys

/-- The deep copy of plain data. -/
def initial (base : Fields Empty) : Heap × List Value :=
  let objects := alloc id Empty.elim [] (.object false base)
  (⟨objects.1, fun _ => true⟩, [objects.2])

end Copy

/-! ## Programs -/

/-- What a program can do with a heap. Data is set with what the program holds in it. -/
structure Semantics (σ ρ : Type) where
  get : σ → ρ → String → σ × JsValue ρ
  set : σ → ρ → String → (ℕ → JsValue ρ) → Data ℕ → σ × Bool
  delete : σ → ρ → String → σ × Bool
  has : σ → ρ → String → Bool
  ownKeys : σ → ρ → List String

def Augmented.semantics : Semantics Augmented.Heap Augmented.Ref where
  get := Augmented.Heap.get
  set heap r key held data :=
    let new := alloc Ref.plain held heap.objects data
    Augmented.Heap.set { heap with objects := new.1 } r key new.2
  delete := Augmented.Heap.delete
  has := Augmented.Heap.has
  ownKeys := Augmented.Heap.ownKeys

/-- The copied objects after data was set on an object: new objects of an array of the copy are. -/
def Copy.Heap.copiedAfter (heap : Copy.Heap) (address : ℕ) : ℕ → Bool := fun a =>
  if a < heap.objects.length then heap.copied a
  else heap.copied address && (objectAt heap.objects address).isArray

def Copy.semantics : Semantics Copy.Heap ℕ where
  get := Copy.Heap.get
  set heap address key held data :=
    let new := alloc id held heap.objects data
    Copy.Heap.set ⟨new.1, heap.copiedAfter address⟩ address key new.2
  delete := Copy.Heap.delete
  has := Copy.Heap.has
  ownKeys := Copy.Heap.ownKeys

/-- An operation on an object that the program holds, by the position at which it was read. Data
may hold what was read. -/
inductive Operation
  | get (handle : ℕ) (key : String)
  | set (handle : ℕ) (key : String) (data : Data ℕ)
  | delete (handle : ℕ) (key : String)
  | has (handle : ℕ) (key : String)
  | ownKeys (handle : ℕ)

/-- What an operation returns. An object shows as the first position at which it was read. -/
inductive Answer
  | value (value : JsValue ℕ)
  | done (success : Bool)
  | keys (names : List String)
  | error

section Run

variable {σ ρ : Type} [DecidableEq ρ] (semantics : Semantics σ ρ)

def heldAt (held : List (JsValue ρ)) (handle : ℕ) : JsValue ρ := held[handle]?.getD .undefined

/-- A value as the program sees it, after it was read. -/
def shown (held : List (JsValue ρ)) (value : JsValue ρ) : JsValue ℕ :=
  value.map fun _ => held.idxOf value

/-- One operation. What is no object has no properties here. -/
def step (state : σ × List (JsValue ρ)) :
    Operation → (σ × List (JsValue ρ)) × Answer
  | .get handle key =>
    match heldAt state.2 handle with
    | .reference r =>
      let result := semantics.get state.1 r key
      let held := state.2 ++ [result.2]
      ((result.1, held), .value (shown held result.2))
    | _ => (state, .error)
  | .set handle key data =>
    match heldAt state.2 handle with
    | .reference r =>
      let result := semantics.set state.1 r key (heldAt state.2) data
      ((result.1, state.2), if result.2 then .done true else .error)
    | _ => (state, .error)
  | .delete handle key =>
    match heldAt state.2 handle with
    | .reference r =>
      let result := semantics.delete state.1 r key
      ((result.1, state.2), .done result.2)
    | _ => (state, .error)
  | .has handle key =>
    match heldAt state.2 handle with
    | .reference r => (state, .done (semantics.has state.1 r key))
    | _ => (state, .error)
  | .ownKeys handle =>
    match heldAt state.2 handle with
    | .reference r => (state, .keys (semantics.ownKeys state.1 r))
    | _ => (state, .error)

/-- The operations in order: the state after them, and their answers. -/
def run (state : σ × List (JsValue ρ)) : List Operation → (σ × List (JsValue ρ)) × List Answer
  | [] => (state, [])
  | operation :: rest =>
    let result := step semantics state operation
    let results := run result.1 rest
    (results.1, result.2 :: results.2)

end Run

end N8n.DataProxy
