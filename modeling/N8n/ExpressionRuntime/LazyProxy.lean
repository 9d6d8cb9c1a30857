import Std.Data.String.ToNat
import N8n.Common.JsonValue
import N8n.DataProxy.JsObject

/-!
# Lazy proxies on host data

Expressions read the data of a workflow through proxies. A proxy fetches a property from the host
when it is first read, and keeps it in its target. The first write copies the other properties into
the target, to which everything is left from then on.

The data is JSON, so that neither `$item` nor `$` is a function on it, and paths lead through arrays
and objects.

## Main definitions

* `Realm`, `Realm.get`, `Realm.has`: what objects inherit
* `getValueAtPath`, `getArrayElement`: what the host gives away
* `Heap.createDeepLazyProxy`, `Heap.materialize`: proxies, and their copy on write
* `Heap.get`, `set`, `delete`, `has`, `ownKeys`: the traps
-/

namespace N8n.ExpressionRuntime.LazyProxy

open DataProxy (JsValue JsObject View)
open StaticData (Primitive)

/-! ## Inheritance -/

/-- What a name is inherited as: a value, or the accessor `__proto__` of `Object.prototype`. -/
inductive Inherited (X : Type)
  | value (value : JsValue X)
  | accessor

/-- The objects that are no proxies, such as `Object.prototype` and what the expression makes
itself, and what each of them hands down. -/
structure Realm (X : Type) where
  /-- The prototype of arrays, and of other objects. -/
  prototype : Bool → X
  find : X → String → Option (Inherited X)
  find_accessor : ∀ x key, find x key = some .accessor → key = "__proto__"
  find_prototype : ∀ isArray, find (prototype isArray) "__proto__" = some .accessor

variable {X ρ : Type}

namespace Realm

variable (realm : Realm X)

def inherited (prototype : Option X) (key : String) : Option (Inherited X) :=
  prototype.bind (realm.find · key)

/-- `Reflect.get`. The accessor gives the prototype. -/
def get (external : X → ρ) (view : View ρ) (prototype : Option X) (key : String) : JsValue ρ :=
  match view.own key with
  | some value => value
  | none =>
    match realm.inherited prototype key with
    | some (.value value) => value.map external
    | some .accessor => (prototype.map fun x => .reference (external x)).getD (.primitive .null)
    | none => .undefined

/-- `Reflect.has`. -/
def has (view : View ρ) (prototype : Option X) (key : String) : Bool :=
  (view.own key).isSome || (realm.inherited prototype key).isSome

/-- Setting the name calls the accessor. -/
def isAccessor (view : View ρ) (prototype : Option X) (key : String) : Bool :=
  match view.own key, realm.inherited prototype key with
  | none, some .accessor => true
  | _, _ => false

end Realm

/-- The prototype after the accessor was called with a value. Only an object or `null` changes it,
and a proxy as a prototype is not followed up. -/
def prototypeAfter (external : ρ → Option X) (prototype : Option X) : JsValue ρ → Option X
  | .primitive .null => none
  | .reference r => (external r).elim prototype some
  | _ => prototype

/-! ## The host -/

/-- What a path leads to: nothing, a prototype that is no data, or data. -/
inductive Found
  | undefined
  | prototype
  | data (value : JsonValue)

/-- The index that a text is the name of, if the array has it. -/
def isInArrayBounds (arrayLength : ℕ) (prop : String) : Option ℕ :=
  match prop.toNat? with
  | some idx => if idx < arrayLength ∧ toString idx = prop then some idx else none
  | none => none

/-- The own property of an array or an object, the length of an array aside. -/
def ownValue (value : JsonValue) (key : String) : Option JsonValue :=
  match value with
  | .object _ => value.field key
  | .array items => (isInArrayBounds items.length key).bind (items[·]?)
  | _ => none

/-- A property of data. What is inherited are functions, which the host gives to nobody, and the
prototype itself. -/
def Found.member : Found → String → Found
  | .data (.object fields), key =>
    (ownValue (.object fields) key).elim
      (if key = "__proto__" then .prototype else .undefined) .data
  | .data (.array items), key =>
    if key = "length" then .data (.number items.length)
    else
      (ownValue (.array items) key).elim
        (if key = "__proto__" then .prototype else .undefined) .data
  | _, _ => .undefined

/-- The path ends early at `null` and `undefined`. -/
def navigate : Found → List String → Found
  | value, [] => value
  | value, key :: rest =>
    match value.member key with
    | .undefined => .undefined
    | .data .null => .data .null
    | next => navigate next rest

/-- What crosses the boundary of the isolate. -/
inductive Transferred
  | undefined
  | primitive (p : Primitive)
  | arrayMetadata (length : ℕ)
  | objectMetadata (keys : List String)

/-- Arrays and objects are told by their length and their keys. -/
def transfer : JsonValue → Transferred
  | .null => .primitive .null
  | .bool b => .primitive (.bool b)
  | .number n => .primitive (.number n)
  | .string s => .primitive (.string s)
  | .array items => .arrayMetadata items.length
  | .object fields => .objectMetadata (fields.map Prod.fst)

def getValueAtPath (data : JsonValue) (path : List String) : Transferred :=
  match navigate (.data data) path with
  | .undefined => .undefined
  | .prototype => .objectMetadata []
  | .data value => transfer value

def getArrayElement (data : JsonValue) (path : List String) (index : ℕ) : Transferred :=
  match navigate (.data data) path with
  | .data (.array items) => items[index]?.elim .undefined transfer
  | _ => .undefined

/-! ## Proxies -/

/-- A proxy, or another object. -/
inductive Ref (X : Type)
  | proxy (index : ℕ)
  | external (x : X)
  deriving DecidableEq

def Ref.asExternal : Ref X → Option X
  | .proxy _ => none
  | .external x => some x

abbrev Value (X : Type) := JsValue (Ref X)

/-- The kind of a proxy, with the keys if they are known and the length. -/
inductive ProxyMeta
  | object (keys : Option (List String))
  | array (length : ℕ)
  deriving DecidableEq

def ProxyMeta.isArray : ProxyMeta → Bool
  | .object _ => false
  | .array _ => true

/-- A proxy with what its traps share. -/
structure Proxy (X : Type) where
  basePath : List String
  proxyMeta : ProxyMeta
  fetchedKeys : Option (List String)
  target : JsObject (Ref X)
  prototype : Option X
  materialized : Bool

/-- The host's data, and the proxies in the order in which they were made. -/
structure Heap (X : Type) where
  data : JsonValue
  proxies : List (Proxy X)

namespace Heap

def modify (heap : Heap X) (i : ℕ) (f : Proxy X → Proxy X) : Heap X :=
  { heap with proxies := heap.proxies.modify i f }

def hasOwnProperty (heap : Heap X) (i : ℕ) (key : String) : Bool :=
  heap.proxies[i]?.any fun p => (p.target.view.own key).isSome

def resolveObjectKeys (heap : Heap X) (i : ℕ) (p : Proxy X) : Heap X × List String :=
  match p.proxyMeta with
  | .object (some keys) => (heap, keys)
  | _ =>
    match p.fetchedKeys with
    | some keys => (heap, keys)
    | none =>
      match getValueAtPath heap.data p.basePath with
      | .objectMetadata keys =>
        (heap.modify i fun p => { p with fetchedKeys := some keys }, keys)
      | _ => (heap, [])

section Traps

variable (realm : Realm X)

/-- A new proxy, whose target is empty. -/
def createDeepLazyProxy (heap : Heap X) (basePath : List String) (proxyMeta : ProxyMeta) :
    Heap X × Value X :=
  ({ heap with
      proxies := heap.proxies ++
        [{ basePath
           proxyMeta
           fetchedKeys := none
           target := .empty proxyMeta.isArray
           prototype := some (realm.prototype proxyMeta.isArray)
           materialized := false }] },
    .reference (.proxy heap.proxies.length))

/-- Arrays and objects are proxied in turn. -/
def materializeChild (heap : Heap X) (basePath : List String) (propOrIdx : String) :
    Transferred → Heap X × Value X
  | .undefined => (heap, .undefined)
  | .primitive p => (heap, .primitive p)
  | .arrayMetadata length =>
    heap.createDeepLazyProxy realm (basePath ++ [propOrIdx]) (.array length)
  | .objectMetadata keys =>
    heap.createDeepLazyProxy realm (basePath ++ [propOrIdx]) (.object (some keys))

/-- What was fetched is kept in the target. -/
def fetchAndCache (heap : Heap X) (i : ℕ) (basePath : List String) (prop : String)
    (value : Transferred) : Heap X × Value X :=
  let child := heap.materializeChild realm basePath prop value
  (child.1.modify i fun p =>
    { p with target := (p.target.set prop child.2).getD p.target }, child.2)

def fetchAndCacheArrayElement (heap : Heap X) (i : ℕ) (basePath : List String) (idx : ℕ)
    (prop : String) : Heap X × Value X :=
  heap.fetchAndCache realm i basePath prop (getArrayElement heap.data basePath idx)

def fetchAndCacheObjectValue (heap : Heap X) (i : ℕ) (basePath : List String) (prop : String) :
    Heap X × Value X :=
  heap.fetchAndCache realm i basePath prop (getValueAtPath heap.data (basePath ++ [prop]))

/-- The elements that are not cached are fetched. -/
def materializeElements (heap : Heap X) (i : ℕ) (basePath : List String) (indices : List ℕ) :
    Heap X :=
  indices.foldl (fun heap idx =>
    if heap.hasOwnProperty i (toString idx) then heap
    else (heap.fetchAndCacheArrayElement realm i basePath idx (toString idx)).1) heap

/-- The properties that are not cached are fetched. -/
def materializeKeys (heap : Heap X) (i : ℕ) (basePath : List String) (keys : List String) :
    Heap X :=
  keys.foldl (fun heap key =>
    if heap.hasOwnProperty i key then heap
    else (heap.fetchAndCacheObjectValue realm i basePath key).1) heap

/-- Copy on write: what is not cached is fetched, and what is cached stays. -/
def materialize (heap : Heap X) (i : ℕ) : Heap X :=
  match heap.proxies[i]? with
  | none => heap
  | some p =>
    if p.materialized then heap
    else
      match p.proxyMeta with
      | .array length =>
        (heap.materializeElements realm i p.basePath (List.range length)).modify i fun p =>
          { p with target := p.target.resize length, materialized := true }
      | .object _ =>
        let keys := heap.resolveObjectKeys i p
        (keys.1.materializeKeys realm i p.basePath keys.2).modify i fun p =>
          { p with materialized := true }

/-! ## The traps -/

def get (heap : Heap X) (i : ℕ) (prop : String) : Heap X × Value X :=
  match heap.proxies[i]? with
  | none => (heap, .undefined)
  | some p =>
    if p.materialized then (heap, realm.get .external p.target.view p.prototype prop)
    else
      match p.proxyMeta with
      | .array length =>
        if prop = "length" then (heap, .primitive (.number length))
        else if realm.has p.target.view p.prototype prop then
          (heap, realm.get .external p.target.view p.prototype prop)
        else
          match isInArrayBounds length prop with
          | none => (heap, .undefined)
          | some idx => heap.fetchAndCacheArrayElement realm i p.basePath idx prop
      | .object _ =>
        if realm.has p.target.view p.prototype prop then
          (heap, realm.get .external p.target.view p.prototype prop)
        else heap.fetchAndCacheObjectValue realm i p.basePath prop

def set (heap : Heap X) (i : ℕ) (prop : String) (value : Value X) : Heap X × Bool :=
  let heap := heap.materialize realm i
  match heap.proxies[i]? with
  | none => (heap, false)
  | some p =>
    if realm.isAccessor p.target.view p.prototype prop then
      (heap.modify i fun p =>
        { p with prototype := prototypeAfter Ref.asExternal p.prototype value }, true)
    else
      match p.target.set prop value with
      | none => (heap, false)
      | some target => (heap.modify i fun p => { p with target }, true)

def delete (heap : Heap X) (i : ℕ) (prop : String) : Heap X × Bool :=
  let heap := heap.materialize realm i
  match heap.proxies[i]? with
  | none => (heap, false)
  | some p =>
    (heap.modify i fun p => { p with target := (p.target.delete prop).1 },
      (p.target.delete prop).2)

def has (heap : Heap X) (i : ℕ) (prop : String) : Bool :=
  match heap.proxies[i]? with
  | none => false
  | some p =>
    if p.materialized then realm.has p.target.view p.prototype prop
    else
      match p.proxyMeta with
      | .array length =>
        if prop = "length" then true
        else if realm.has p.target.view p.prototype prop then true
        else (isInArrayBounds length prop).isSome
      | .object _ =>
        if realm.has p.target.view p.prototype prop then true
        else
          match getValueAtPath heap.data (p.basePath ++ [prop]) with
          | .undefined => false
          | _ => true

def ownKeys (heap : Heap X) (i : ℕ) : Heap X × List String :=
  match heap.proxies[i]? with
  | none => (heap, [])
  | some p =>
    if p.materialized then (heap, p.target.ownKeys)
    else
      match p.proxyMeta with
      | .array length => (heap, (List.range length).map toString ++ ["length"])
      | .object _ => heap.resolveObjectKeys i p

end Traps

end Heap

/-! ## Operations -/

inductive Operation (ρ : Type)
  | get (key : String)
  | set (key : String) (value : JsValue ρ)
  | delete (key : String)
  | has (key : String)
  | ownKeys

/-- What an operation returns. The order of keys is left aside. -/
inductive Answer (ρ : Type)
  | value (value : JsValue ρ)
  | done (success : Bool)
  | error
  | keys (isKey : String → Bool)

def Heap.apply (realm : Realm X) (heap : Heap X) (i : ℕ) :
    Operation (Ref X) → Heap X × Answer (Ref X)
  | .get key => ((heap.get realm i key).1, .value (heap.get realm i key).2)
  | .set key value =>
    ((heap.set realm i key value).1,
      if (heap.set realm i key value).2 then .done true else .error)
  | .delete key => ((heap.delete realm i key).1, .done (heap.delete realm i key).2)
  | .has key => (heap, .done (heap.has realm i key))
  | .ownKeys => ((heap.ownKeys i).1, .keys ((heap.ownKeys i).2.contains ·))

end N8n.ExpressionRuntime.LazyProxy
