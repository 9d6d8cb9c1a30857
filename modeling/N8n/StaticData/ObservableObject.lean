import N8n.Foundations.OrderedMap
import Mathlib.Logic.Function.Basic
import Mathlib.Data.Rat.Defs

/-!
# Observable objects

The static data of a workflow is saved when a flag on its root says that it changed. The objects
of the initial data are wrapped in observables, which set the flag when a property is set or
deleted through them; an object that is stored later is kept as it is.

## Main definitions

* `Heap`: the objects and the observables that wrap them
* `Data`: what a program writes down: primitive values, objects it holds, and new plain objects
* `Heap.alloc`: new plain objects
* `create`: the observable of initial data
* `Heap.setProperty`, `Heap.deleteProperty`: a property set or deleted through a reference
* `Heap.getStaticData`: the part of the static data that belongs to a node

## Main results

* `Heap.grows_alloc`: new plain objects leave the old objects as they are
* `Heap.grows_wrap`: the observables of initial data report to its root
-/

namespace N8n.StaticData

/-! ## Objects -/

inductive Primitive
  | undefined
  | null
  | bool (b : Bool)
  | number (n : ℚ)
  | string (s : String)
deriving DecidableEq, Repr

/-- A reference to a plain object, or to an observable. -/
inductive Ref
  | plain (address : ℕ)
  | observable (index : ℕ)
deriving DecidableEq, Repr

inductive Value
  | primitive (p : Primitive)
  | reference (r : Ref)
deriving DecidableEq, Repr

def flagName : String := "__dataChanged"

/-- A plain object. The elements of an array are stored under their indices. -/
structure Target where
  isArray : Bool
  props : OrderedMap String Value
  length : ℕ
  /-- The flag, once it is defined on the object. -/
  dataChanged : Option Bool

namespace Target

def empty (isArray : Bool) : Target := ⟨isArray, .empty, 0, none⟩

def arrayIndex (name : String) : Option ℕ :=
  match name.toNat? with
  | some index => if toString index = name then some index else none
  | none => none

/-- Set a property. An array grows with its indices, and loses elements when its length shrinks. -/
def set (target : Target) (name : String) (value : Value) : Target :=
  if target.isArray then
    match arrayIndex name with
    | some index =>
      { target with
        props := target.props.set name value
        length := max target.length (index + 1) }
    | none =>
      match name, value with
      | "length", .primitive (.number n) =>
        let length := n.num.toNat
        let beyond := target.props.keys.filter fun name => (arrayIndex name).any (length ≤ ·)
        { target with props := beyond.foldl OrderedMap.delete target.props, length }
      | _, _ => { target with props := target.props.set name value }
  else { target with props := target.props.set name value }

/-- Delete a property. The length of an array stays. -/
def delete (target : Target) (name : String) : Target :=
  if target.isArray ∧ name = "length" then target
  else { target with props := target.props.delete name }

def get (target : Target) (name : String) : Value :=
  if target.isArray ∧ name = "length" then .primitive (.number target.length)
  else (target.props.get? name).getD (.primitive .undefined)

/-- The data of an object, without the flag. -/
def data (target : Target) : Bool × OrderedMap String Value × ℕ :=
  (target.isArray, target.props, target.length)

@[simp] theorem dataChanged_set (target : Target) (name : String) (value : Value) :
    (target.set name value).dataChanged = target.dataChanged := by
  unfold set
  split_ifs
  · split
    · rfl
    · split <;> rfl
  · rfl

@[simp] theorem dataChanged_delete (target : Target) (name : String) :
    (target.delete name).dataChanged = target.dataChanged := by
  unfold delete
  split_ifs <;> rfl

end Target

/-! ## The heap -/

/-- Where an observable that is not a root reports to: the object behind the root, or the
observable of the root. -/
inductive Parent
  | target (address : ℕ)
  | observable (index : ℕ)
deriving DecidableEq, Repr

/-- A wrapped object. A root has no parent. -/
structure Observable where
  target : ℕ
  parent : Option Parent
  depth : ℕ
deriving DecidableEq, Repr

structure Heap where
  targets : ℕ → Option Target
  /-- The next free address. -/
  targetCount : ℕ
  observables : ℕ → Option Observable
  /-- The next free index. -/
  observableCount : ℕ

namespace Heap

def empty : Heap := ⟨fun _ => none, 0, fun _ => none, 0⟩

def newTarget (heap : Heap) (target : Target) : Heap :=
  { heap with
    targets := Function.update heap.targets heap.targetCount (some target)
    targetCount := heap.targetCount + 1 }

def newObservable (heap : Heap) (observable : Observable) : Heap :=
  { heap with
    observables := Function.update heap.observables heap.observableCount (some observable)
    observableCount := heap.observableCount + 1 }

def modify (heap : Heap) (address : ℕ) (f : Target → Target) : Heap :=
  { heap with targets := Function.update heap.targets address ((heap.targets address).map f) }

/-- Set the flag of an object. -/
def mark (heap : Heap) (address : ℕ) : Heap :=
  heap.modify address fun target => { target with dataChanged := some true }

/-- The object behind a reference. -/
def address (heap : Heap) : Ref → Option ℕ
  | .plain address => some address
  | .observable index => (heap.observables index).map Observable.target

def target (heap : Heap) (r : Ref) : Option Target := (heap.address r).bind heap.targets

/-- The object whose flag an observable sets. The observable of a root sets the flag on its own
object, also when the flag is assigned through it. -/
def reportsTo (heap : Heap) (observable : Observable) : Option ℕ :=
  match observable.parent with
  | none => some observable.target
  | some (.target address) => some address
  | some (.observable index) => (heap.observables index).map Observable.target

end Heap

/-! ## Plain data -/

mutual

/-- What a program writes down: primitive values, references it holds, and new objects. -/
inductive Data (α : Type)
  | primitive (p : Primitive)
  | held (a : α)
  | object (isArray : Bool) (fields : Fields α)

inductive Fields (α : Type)
  | nil
  | cons (name : String) (value : Data α) (rest : Fields α)

end

def Fields.names {α : Type} : Fields α → List String
  | .nil => []
  | .cons name _ rest => name :: rest.names

mutual

/-- Allocate new plain objects. -/
def Heap.alloc (heap : Heap) : Data Ref → Heap × Value
  | .primitive p => (heap, .primitive p)
  | .held r => (heap, .reference r)
  | .object isArray fields =>
    let (heap, target) := heap.allocFields (.empty isArray) fields
    (heap.newTarget target, .reference (.plain heap.targetCount))

def Heap.allocFields (heap : Heap) (target : Target) : Fields Ref → Heap × Target
  | .nil => (heap, target)
  | .cons name value rest =>
    let (heap, value) := heap.alloc value
    heap.allocFields (target.set name value) rest

end

/-! ## Creation -/

mutual

/-- Parsed data, as what a program writes down. -/
def Data.lift : Data Empty → Data Ref
  | .primitive p => .primitive p
  | .object isArray fields => .object isArray fields.lift

def Fields.lift : Fields Empty → Fields Ref
  | .nil => .nil
  | .cons name value rest => .cons name value.lift rest.lift

end

mutual

/-- An object of the initial data: its own objects are wrapped first. An object that already has
a property of the flag's name is taken to be observable, and is left as it is. -/
def Heap.wrap (heap : Heap) (root depth : ℕ) : Data Empty → Heap × Value
  | .primitive p => (heap, .primitive p)
  | .object isArray fields =>
    if flagName ∈ fields.names then heap.alloc (.object isArray fields.lift)
    else
      let (heap, target) := heap.wrapFields root (depth + 1) (.empty isArray) fields
      let address := heap.targetCount
      let heap := heap.newTarget { target with dataChanged := some false }
      (heap.newObservable ⟨address, some (.target root), depth⟩,
        .reference (.observable heap.observableCount))

def Heap.wrapFields (heap : Heap) (root depth : ℕ) (target : Target) :
    Fields Empty → Heap × Target
  | .nil => (heap, target)
  | .cons name value rest =>
    let (heap, value) := heap.wrap root depth value
    heap.wrapFields root depth (target.set name value) rest

end

/-- The observable of parsed data, and its index. A property of the flag's name is redefined. -/
def create (fields : Fields Empty) : Heap × ℕ :=
  let root := Heap.empty.targetCount
  let (heap, target) := (Heap.empty.newTarget (.empty false)).wrapFields root 1 (.empty false) fields
  let heap := heap.modify root fun _ =>
    { target with props := target.props.delete flagName, dataChanged := some false }
  (heap.newObservable ⟨root, none, 0⟩, heap.observableCount)

/-! ## Setting and deleting -/

namespace Heap

/-- `Object.keys` of the value is empty. -/
def isEmptyObject (heap : Heap) : Value → Bool
  | .primitive _ => false
  | .reference r =>
    match heap.target r with
    | none => false
    | some target => target.props.keys = []

def report (heap : Heap) (observable : Observable) : Heap :=
  match heap.reportsTo observable with
  | none => heap
  | some address => heap.mark address

/-- The property of an object. -/
def get (heap : Heap) (address : ℕ) (name : String) : Value :=
  match heap.targets address with
  | none => .primitive .undefined
  | some target => target.get name

/-- Set a property through an observable, `none` where that throws. With `ignoreEmpty` an empty
object that is new on a root is not reported, and a `null` that is new there is asked for its
keys. -/
def setThrough (heap : Heap) (ignoreEmpty : Bool) (observable : Observable) (name : String)
    (value : Value) : Option Heap :=
  let first := ignoreEmpty ∧ observable.parent = none ∧ observable.depth = 0 ∧
    heap.get observable.target name = .primitive .undefined
  if first ∧ value = .primitive .null then none
  else
    let heap := if first ∧ heap.isEmptyObject value then heap else heap.report observable
    some (heap.modify observable.target fun target => target.set name value)

/-- Set a property, `none` where that throws. -/
def setProperty (heap : Heap) (ignoreEmpty : Bool) (r : Ref) (name : String) (value : Value) :
    Option Heap :=
  match r with
  | .plain address => some (heap.modify address fun target => target.set name value)
  | .observable index =>
    (heap.observables index).bind fun observable =>
      heap.setThrough ignoreEmpty observable name value

def deleteProperty (heap : Heap) (r : Ref) (name : String) : Option Heap :=
  match r with
  | .plain address => some (heap.modify address fun target => target.delete name)
  | .observable index =>
    (heap.observables index).map fun observable =>
      (heap.report observable).modify observable.target fun target => target.delete name

def getStaticData (heap : Heap) (ignoreEmpty : Bool) (root : Observable) (index : ℕ)
    (key : String) : Option (Heap × Value) :=
  if heap.get root.target key = .primitive .undefined then
    let child := heap.targetCount
    let heap := heap.newTarget { Target.empty false with dataChanged := some false }
    let created := Value.reference (.observable heap.observableCount)
    let heap := heap.newObservable ⟨child, some (.observable index), 0⟩
    (heap.setThrough ignoreEmpty root key created).map fun heap => (heap, heap.get root.target key)
  else some (heap, heap.get root.target key)

end Heap

/-! ## Growing heaps -/

namespace Heap

/-- A heap with new objects and observables; the new observables report to `root`. -/
structure Grows (root : ℕ) (heap heap' : Heap) : Prop where
  targetCount_le : heap.targetCount ≤ heap'.targetCount
  observableCount_le : heap.observableCount ≤ heap'.observableCount
  targets : ∀ address < heap.targetCount, heap'.targets address = heap.targets address
  observables : ∀ index < heap.observableCount, heap'.observables index = heap.observables index
  reports : ∀ index observable, heap.observableCount ≤ index →
    heap'.observables index = some observable →
      heap.observables index = some observable ∨
        observable.parent = some (.target root) ∧ index < heap'.observableCount

variable {root : ℕ} {heap heap' heap'' : Heap}

theorem Grows.refl (heap : Heap) : Grows root heap heap :=
  ⟨le_rfl, le_rfl, fun _ _ => rfl, fun _ _ => rfl, fun _ _ _ h => .inl h⟩

theorem Grows.trans (h : Grows root heap heap') (h' : Grows root heap' heap'') :
    Grows root heap heap'' := by
  refine ⟨h.targetCount_le.trans h'.targetCount_le,
    h.observableCount_le.trans h'.observableCount_le, ?_, ?_, ?_⟩
  · intro address ha
    rw [h'.targets address (ha.trans_le h.targetCount_le), h.targets address ha]
  · intro index hi
    rw [h'.observables index (hi.trans_le h.observableCount_le), h.observables index hi]
  · intro index observable hle hsome
    by_cases hlt : index < heap'.observableCount
    · rw [h'.observables index hlt] at hsome
      refine (h.reports index observable hle hsome).imp_right ?_
      rintro ⟨hparent, hi⟩
      exact ⟨hparent, hi.trans_le h'.observableCount_le⟩
    · rcases h'.reports index observable (not_lt.mp hlt) hsome with hold | hnew
      · refine (h.reports index observable hle hold).imp_right ?_
        rintro ⟨hparent, hi⟩
        exact ⟨hparent, hi.trans_le h'.observableCount_le⟩
      · exact .inr hnew

theorem grows_newTarget (target : Target) : Grows root heap (heap.newTarget target) := by
  refine ⟨Nat.le_succ _, le_rfl, ?_, fun _ _ => rfl, fun _ _ _ h => .inl h⟩
  intro address ha
  exact Function.update_of_ne ha.ne _ _

theorem grows_newObservable {target depth : ℕ} :
    Grows root heap (heap.newObservable ⟨target, some (.target root), depth⟩) := by
  refine ⟨le_rfl, Nat.le_succ _, fun _ _ => rfl, ?_, ?_⟩
  · intro index hi
    exact Function.update_of_ne hi.ne _ _
  · intro index observable _ hsome
    by_cases heq : index = heap.observableCount
    · subst heq
      simp only [newObservable, Function.update_self, Option.some.injEq] at hsome
      subst hsome
      exact .inr ⟨rfl, Nat.lt_succ_self _⟩
    · simp only [newObservable, Function.update_of_ne heq] at hsome
      exact .inl hsome

mutual

/-- New plain objects leave the old objects and all observables as they are. -/
theorem grows_alloc (heap : Heap) : (data : Data Ref) → Grows root heap (heap.alloc data).1
  | .primitive _ => .refl heap
  | .held _ => .refl heap
  | .object isArray fields =>
    (grows_allocFields heap (.empty isArray) fields).trans (grows_newTarget _)

theorem grows_allocFields (heap : Heap) (target : Target) :
    (fields : Fields Ref) → Grows root heap (heap.allocFields target fields).1
  | .nil => .refl heap
  | .cons _ value rest => (grows_alloc heap value).trans (grows_allocFields _ _ rest)

end

mutual

/-- The observables of initial data report to its root. -/
theorem grows_wrap (heap : Heap) (depth : ℕ) :
    (data : Data Empty) → Grows root heap (heap.wrap root depth data).1
  | .primitive _ => .refl heap
  | .object isArray fields => by
    unfold wrap
    split_ifs
    · exact grows_alloc heap _
    · exact ((grows_wrapFields heap (depth + 1) (.empty isArray) fields).trans
        (grows_newTarget _)).trans grows_newObservable

theorem grows_wrapFields (heap : Heap) (depth : ℕ) (target : Target) :
    (fields : Fields Empty) → Grows root heap (heap.wrapFields root depth target fields).1
  | .nil => .refl heap
  | .cons _ value rest => (grows_wrap heap depth value).trans (grows_wrapFields _ depth _ rest)

end

end Heap

end N8n.StaticData
