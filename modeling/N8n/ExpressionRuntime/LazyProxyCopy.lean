import N8n.ExpressionRuntime.LazyProxy
import N8n.Foundations.Transition

/-!
# Lazy proxies and a deep copy

The deep copy has an object for each path to an array or an object of the data. A proxy stands for
the object of its path, and what it has not cached is as it is in the data.

## Main definitions

* `Copy`, `deepCopy`: the objects of a deep copy, and `Copy.apply` the operations on them
* `Heap.name`: the object of the copy that a proxy stands for
* `system`: the same operations on proxies and on the copy
* `Slip`: an operation that finds what was read before the first write, or what it hides
* `Sound`: the invariant

## Main results

* `navigate_append`: a path with one more key
* `ownValue_array`: the elements of an array by the names of their indices
-/

namespace N8n.ExpressionRuntime.LazyProxy

open DataProxy (JsValue JsObject View arrayIndex decimal)
open StaticData (Primitive)
open Transition

variable {X : Type}

/-! ## The copy -/

/-- An object of the copy, by its path, or another object. -/
inductive CopyRef (X : Type)
  | copy (path : List String)
  | external (x : X)
  deriving DecidableEq

def CopyRef.asExternal : CopyRef X → Option X
  | .copy _ => none
  | .external x => some x

structure Copied (X : Type) where
  view : View (CopyRef X)
  prototype : Option X

abbrev Copy (X : Type) := List String → Copied X

/-- Arrays and objects are copied under their paths. -/
def copyValue (path : List String) : JsonValue → JsValue (CopyRef X)
  | .null => .primitive .null
  | .bool b => .primitive (.bool b)
  | .number n => .primitive (.number n)
  | .string s => .primitive (.string s)
  | .array _ | .object _ => .reference (.copy path)

def isArray : JsonValue → Bool
  | .array _ => true
  | _ => false

def arrayLength : JsonValue → ℕ
  | .array items => items.length
  | _ => 0

def initialCopy (realm : Realm X) (value : JsonValue) (path : List String) : Copied X where
  view :=
    { isArray := isArray value
      length := arrayLength value
      get? := fun key => (ownValue value key).map (copyValue (path ++ [key])) }
  prototype := some (realm.prototype (isArray value))

def deepCopy (realm : Realm X) (data : JsonValue) : Copy X := fun path =>
  match navigate (.data data) path with
  | .data value => initialCopy realm value path
  | _ => initialCopy realm .null path

namespace Copy

variable (realm : Realm X) (copy : Copy X) (path : List String)

/-- Set a property, and whether no error is raised. -/
def set (key : String) (value : JsValue (CopyRef X)) : Copy X × Bool :=
  let object := copy path
  if realm.isAccessor object.view object.prototype key then
    (Function.update copy path
      { object with prototype := prototypeAfter CopyRef.asExternal object.prototype value }, true)
  else
    match object.view.set key value with
    | none => (copy, false)
    | some view => (Function.update copy path { object with view }, true)

def apply : Operation (CopyRef X) → Copy X × Answer (CopyRef X)
  | .get key =>
    (copy, .value (realm.get .external (copy path).view (copy path).prototype key))
  | .set key value =>
    ((copy.set realm path key value).1,
      if (copy.set realm path key value).2 then .done true else .error)
  | .delete key =>
    (Function.update copy path { copy path with view := ((copy path).view.delete key).1 },
      .done ((copy path).view.delete key).2)
  | .has key => (copy, .done (realm.has (copy path).view (copy path).prototype key))
  | .ownKeys => (copy, .keys fun key => ((copy path).view.own key).isSome)

end Copy

/-! ## The two side by side -/

def Operation.map {ρ τ : Type} (f : ρ → τ) : Operation ρ → Operation τ
  | .get key => .get key
  | .set key value => .set key (value.map f)
  | .delete key => .delete key
  | .has key => .has key
  | .ownKeys => .ownKeys

def Answer.map {ρ τ : Type} (f : ρ → τ) : Answer ρ → Answer τ
  | .value v => .value (v.map f)
  | .done success => .done success
  | .error => .error
  | .keys isKey => .keys isKey

def Heap.paths (heap : Heap X) : List (List String) := heap.proxies.map Proxy.basePath

def Heap.name (heap : Heap X) : Ref X → CopyRef X
  | .proxy i => .copy (heap.paths[i]?.getD [])
  | .external x => .external x

/-- Proxies and the copy, with the names that were read from a proxy while it had no such property,
and neither set nor deleted since. -/
structure Side (X : Type) where
  heap : Heap X
  copy : Copy X
  missing : List (ℕ × String)

/-- A proxy that is not materialized is read under a name that it neither has nor inherits. -/
def LeavesTrace (realm : Realm X) (heap : Heap X) (i : ℕ) (key : String) : Prop :=
  ∃ p keys, heap.proxies[i]? = some p ∧ p.materialized = false ∧ p.proxyMeta = .object keys ∧
    realm.has p.target.view p.prototype key = false ∧
      getValueAtPath heap.data (p.basePath ++ [key]) = .undefined

open Classical in
/-- The names that were read while they were missing, after an operation. -/
noncomputable def missingAfter (realm : Realm X) (s : Side X) (i : ℕ) :
    Operation (Ref X) → List (ℕ × String)
  | .get key => if LeavesTrace realm s.heap i key then (i, key) :: s.missing else s.missing
  | .set key _ | .delete key => s.missing.filter (· ≠ (i, key))
  | .has _ | .ownKeys => s.missing

/-- An operation, with what it returns on the proxy and on the copy. A proxy that is returned is
told by the object of the copy that it stands for. -/
structure Exchange (X : Type) where
  index : ℕ
  operation : Operation (Ref X)
  answer : Answer (CopyRef X)
  copyAnswer : Answer (CopyRef X)

/-- A value that a program can have: the proxies in it exist. -/
def IsHeld (heap : Heap X) : JsValue (Ref X) → Prop
  | .reference (.proxy j) => j < heap.proxies.length
  | _ => True

def Operation.IsHeld (heap : Heap X) : Operation (Ref X) → Prop
  | .set _ value => LazyProxy.IsHeld heap value
  | .get _ | .delete _ | .has _ | .ownKeys => True

/-- The kind of a proxy is that of its value. The keys of an object may be left to be fetched. -/
def Fits (value : JsonValue) (proxyMeta : ProxyMeta) : Prop :=
  match value with
  | .array items => proxyMeta = .array items.length
  | .object fields =>
    proxyMeta = .object none ∨ proxyMeta = .object (some (fields.map Prod.fst))
  | _ => False

/-- The proxy for the value at a path, and the deep copy. Each operation is made on a proxy that
exists and on the object that it stands for. -/
noncomputable def system (realm : Realm X) (data : JsonValue) (basePath : List String) :
    System (Side X) (Exchange X) where
  init s := ∃ value proxyMeta, navigate (.data data) basePath = .data value ∧
    Fits value proxyMeta ∧
      s = ⟨(Heap.createDeepLazyProxy realm ⟨data, []⟩ basePath proxyMeta).1,
        deepCopy realm data, []⟩
  step s e t := ∃ path answer, s.heap.paths[e.index]? = some path ∧ e.operation.IsHeld s.heap ∧
    s.heap.apply realm e.index e.operation = (t.heap, answer) ∧
    e.answer = answer.map t.heap.name ∧
    s.copy.apply realm path (e.operation.map s.heap.name) = (t.copy, e.copyAnswer) ∧
    t.missing = missingAfter realm s e.index e.operation

/-- Before the first write, an own property is read that the target inherits under the same name.
Or a name is asked for that was read while it was missing. Or a proxy becomes a prototype. -/
def Slip (realm : Realm X) (s : Side X) (e : Exchange X) : Prop :=
  match e.operation with
  | .get key => ∃ p, s.heap.proxies[e.index]? = some p ∧
      (realm.inherited p.prototype key).isSome ∧
        ((e.index, key) ∈ s.missing ∨
          p.materialized = false ∧ ∃ value, navigate (.data s.heap.data) p.basePath = .data value ∧
            (ownValue value key).isSome)
  | .has key => ∃ p, s.heap.proxies[e.index]? = some p ∧ (e.index, key) ∈ s.missing ∧
      realm.inherited p.prototype key = none
  | .ownKeys => ∃ p key, s.heap.proxies[e.index]? = some p ∧ p.materialized = true ∧
      (e.index, key) ∈ s.missing
  | .set key value => ∃ p j, (s.heap.materialize realm e.index).proxies[e.index]? = some p ∧
      realm.isAccessor p.target.view p.prototype key = true ∧ value = .reference (.proxy j)
  | .delete _ => False

/-! ## Paths -/

theorem navigate_append {found : Found} {path : List String} {value : JsonValue}
    (h : navigate found path = .data value) (hvalue : value ≠ .null) (key : String) :
    navigate found (path ++ [key]) = navigate (.data value) [key] := by
  induction path generalizing found with
  | nil =>
    rw [show found = .data value from h]
    rfl
  | cons first rest ih =>
    unfold navigate at h
    rw [List.cons_append, navigate]
    split at h
    · cases h
    · cases h
      exact absurd rfl hvalue
    · exact ih h

theorem navigate_singleton (value : JsonValue) (key : String) :
    navigate (.data value) [key] = (Found.data value).member key := by
  rw [navigate]
  split
  next h => exact h.symm
  next h => exact h.symm
  next => rfl

theorem getValueAtPath_append {data value : JsonValue} {path : List String}
    (h : navigate (.data data) path = .data value) (hvalue : value ≠ .null) (key : String) :
    getValueAtPath data (path ++ [key]) =
      match (Found.data value).member key with
      | .undefined => .undefined
      | .prototype => .objectMetadata []
      | .data value => transfer value := by
  unfold getValueAtPath
  rw [navigate_append h hvalue, navigate_singleton] <;> rfl

/-! ## The names of indices -/

theorem toNat?_toString (n : ℕ) : (toString n).toNat? = some n :=
  Nat.toNat?_repr n

theorem toString_ne_length (n : ℕ) : toString n ≠ "length" := by
  intro h
  have hmem : 'l' ∈ (Nat.repr n).toList := by
    rw [show Nat.repr n = "length" from h]
    decide
  rw [Nat.toList_repr] at hmem
  exact absurd (Nat.isDigit_of_mem_toDigits (by decide) (by decide) hmem) (by decide)

theorem decimal_toString (n : ℕ) : decimal (toString n).toList = n := by
  change Nat.ofDigitChars 10 (Nat.repr n).toList 0 = n
  simp

theorem arrayIndex_toString {n m : ℕ} (h : arrayIndex (toString n) = some m) : m = n := by
  unfold arrayIndex at h
  simp only at h
  split_ifs at h
  rw [decimal_toString, Option.some.injEq] at h
  exact h.symm

theorem isInArrayBounds_eq_some {length idx : ℕ} {prop : String} :
    isInArrayBounds length prop = some idx ↔ idx < length ∧ toString idx = prop := by
  unfold isInArrayBounds
  constructor
  · intro h
    split at h
    · split_ifs at h with hidx
      rw [Option.some.injEq] at h
      rw [← h]
      exact hidx
    · cases h
  · rintro ⟨hlt, rfl⟩
    rw [toNat?_toString]
    exact if_pos ⟨hlt, rfl⟩

theorem ownValue_array {items : List JsonValue} {key : String} {value : JsonValue} :
    ownValue (.array items) key = some value ↔
      ∃ idx : ℕ, toString idx = key ∧ items[idx]? = some value := by
  unfold ownValue
  rw [Option.bind_eq_some_iff]
  constructor
  · rintro ⟨idx, hidx, hvalue⟩
    exact ⟨idx, (isInArrayBounds_eq_some.1 hidx).2, hvalue⟩
  · rintro ⟨idx, hkey, hvalue⟩
    refine ⟨idx, isInArrayBounds_eq_some.2 ⟨?_, hkey⟩, hvalue⟩
    exact (List.getElem?_eq_some_iff.mp hvalue).1

theorem ownValue_array_length (items : List JsonValue) :
    ownValue (.array items) "length" = none := by
  cases h : ownValue (.array items) "length" with
  | none => rfl
  | some value =>
    obtain ⟨idx, hidx, -⟩ := ownValue_array.1 h
    exact absurd hidx (toString_ne_length idx)

theorem ownValue_object {fields : List (String × JsonValue)} {key : String} :
    (ownValue (.object fields) key).isSome ↔ key ∈ fields.map Prod.fst := by
  simp [ownValue, JsonValue.field, List.mem_map]

/-! ## The invariant -/

/-- A property that is cached before the first write: what the data has, or the trace of a name
that was missing. -/
def IsCached (s : Side X) (i : ℕ) (p : Proxy X) (value : JsonValue) (key : String)
    (cached : JsValue (Ref X)) : Prop :=
  (∃ child, ownValue value key = some child ∧
    cached.map s.heap.name = copyValue (p.basePath ++ [key]) child) ∨
  ((i, key) ∈ s.missing ∧ cached = .undefined ∧ ownValue value key = none)

/-- What a proxy shows of the copy after the first write: its target without the traces. -/
def Side.shown (s : Side X) (i : ℕ) (p : Proxy X) : Copied X where
  view :=
    { isArray := p.target.isArray
      length := p.target.length
      get? := fun key => if (i, key) ∈ s.missing then none else
        (p.target.props.get? key).map (JsValue.map s.heap.name) }
  prototype := p.prototype

/-- A proxy stands for the object of the copy at its path. What is below a property that is not
cached has no proxy. -/
structure Stands (realm : Realm X) (s : Side X) (i : ℕ) (p : Proxy X) (value : JsonValue) :
    Prop where
  path : navigate (.data s.heap.data) p.basePath = .data value
  fits : Fits value p.proxyMeta
  isArray : p.target.isArray = p.proxyMeta.isArray
  length : p.target.isArray = false → p.target.length = 0
  fetchedKeys : ∀ keys, p.fetchedKeys = some keys →
    ∃ fields, value = .object fields ∧ keys = fields.map Prod.fst
  held : ∀ key cached, p.target.props.get? key = some cached → IsHeld s.heap cached
  fresh : p.materialized = false → ∀ key, p.target.props.get? key = none →
    ∀ path ∈ s.heap.paths, ¬ p.basePath ++ [key] <+: path
  prototype : p.materialized = false → p.prototype = some (realm.prototype p.proxyMeta.isArray)
  cached : p.materialized = false → ∀ key cached, p.target.props.get? key = some cached →
    IsCached s i p value key cached
  written : p.materialized = true → s.copy p.basePath = s.shown i p

/-- Each proxy stands for an object of its own. What no proxy has written is as in the data. -/
structure Sound (realm : Realm X) (data : JsonValue) (s : Side X) : Prop where
  host : s.heap.data = data
  nodup : s.heap.paths.Nodup
  stands : ∀ (i : ℕ) p, s.heap.proxies[i]? = some p → ∃ value, Stands realm s i p value
  untouched : ∀ path, (∀ (i : ℕ) p, s.heap.proxies[i]? = some p → p.basePath = path →
    p.materialized = false) → s.copy path = deepCopy realm data path
  missing : ∀ i key, (i, key) ∈ s.missing → ∃ p, s.heap.proxies[i]? = some p ∧
    p.target.isArray = false ∧ p.target.props.get? key = some .undefined ∧ key ≠ "__proto__" ∧
      (s.copy p.basePath).view.get? key = none

end N8n.ExpressionRuntime.LazyProxy
