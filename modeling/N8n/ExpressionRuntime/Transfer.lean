import Mathlib.Data.Nat.Basic
import Mathlib.Data.List.Basic
import Mathlib.Order.Lattice

/-!
# The transfer of expression results

Results of expressions leave their isolate by structured clone, which strips the class of an
instance. The guest puts markers for luxon values and escapes data that looks like one, and the
host rebuilds the luxon values from the markers. Values are trees whose objects have an identity,
so that an object may occur at several places.

## Main definitions

* `Value`, `Items`, `Fields`: results, arrays with holes, and own enumerable fields
* `encodeLuxonValue`: the markers
* `prepareForTransfer`: the guest's walk
* `Value.clone`: structured clone
* `unwrapTransferSentinels`: the host's test and walk
-/

namespace N8n.ExpressionRuntime.Transfer

/-! ## Luxon values -/

/-- What a marker carries of a `DateTime`. The zone of a value in the system zone is left out. -/
inductive DateTime
  | valid (isoString : String) (zone : Option String)
  | invalid (reason : String) (explanation : Option String)
  deriving DecidableEq

/-- The luxon values that are transferred. `P` are the numbers and other primitives. -/
inductive Luxon (P : Type)
  | dateTime (value : DateTime)
  | duration (values : List (String × P))
  | invalidDuration (reason : String) (explanation : Option String)
  | interval (start stop : DateTime)
  | invalidInterval (reason : String) (explanation : Option String)
  deriving DecidableEq

/-! ## Results -/

mutual

/-- Results of expressions. The objects carry their identity, and `B` are the kinds of built-ins
that structured clone copies, with what else they hold. An instance has a class that structured
clone does not know. -/
inductive Value (P B : Type)
  | undefined
  | null
  | boolean (b : Bool)
  | string (s : String)
  | other (p : P)
  | array (id : ℕ) (items : Items P B)
  | plain (id : ℕ) (fields : Fields P B)
  | builtin (id : ℕ) (kind : B) (contents : Items P B)
  | inst (id : ℕ) (fields : Fields P B)
  | luxon (value : Luxon P)

/-- The elements of an array, and its holes. -/
inductive Items (P B : Type)
  | nil
  | hole (rest : Items P B)
  | item (value : Value P B) (rest : Items P B)

/-- Own enumerable fields in the order of their keys. -/
inductive Fields (P B : Type)
  | nil
  | cons (key : String) (value : Value P B) (rest : Fields P B)

end

variable {P B : Type}

/-- `Reflect.get`. -/
def Fields.get : Fields P B → String → Value P B
  | .nil, _ => .undefined
  | .cons key value rest, k => if key = k then value else rest.get k

/-- `Object.keys`. -/
def Fields.keys : Fields P B → List String
  | .nil => []
  | .cons key _ rest => key :: rest.keys

/-- `result[key] = value` on a fresh object. The key `__proto__` sets its prototype, which is no
field. -/
def Fields.assign (key : String) (value : Value P B) (rest : Fields P B) : Fields P B :=
  if key = "__proto__" then rest else .cons key value rest

/-! ## The framing -/

def TRANSFER_TYPE_KEY : String := "__n8nType"

def TRANSFER_ESCAPED_KEY : String := "__n8nEscaped"

def TRANSFER_OPAQUE_KEY : String := "__n8nOpaque"

def TRANSFER_VALUE_KEY : String := "__value"

/-- The own keys that make an object look like framing. -/
def TRANSFER_FRAMING_KEYS : List String :=
  [TRANSFER_TYPE_KEY, TRANSFER_ESCAPED_KEY, TRANSFER_OPAQUE_KEY]

/-- The type a marker names is a string. -/
def isTransferSentinel (fields : Fields P B) : Bool :=
  match fields.get TRANSFER_TYPE_KEY with
  | .string _ => true
  | _ => false

def Fields.flag (fields : Fields P B) (key : String) : Bool :=
  match fields.get key with
  | .boolean b => b
  | _ => false

def isEscapedTransferValue (fields : Fields P B) : Bool :=
  fields.flag TRANSFER_ESCAPED_KEY

def isOpaqueTransferValue (fields : Fields P B) : Bool :=
  fields.flag TRANSFER_OPAQUE_KEY

/-! ## Markers -/

/-- The explanation of an invalid value may be `null`. -/
def explanationValue : Option String → Value P B
  | some explanation => .string explanation
  | none => .null

def invalidSentinel (type reason : String) (explanation : Option String) : Fields P B :=
  .cons TRANSFER_TYPE_KEY (.string type) <|
    .cons "__invalidReason" (.string reason) <|
      .cons "__invalidExplanation" (explanationValue explanation) .nil

def dateTimeToSentinel : DateTime → Fields P B
  | .invalid reason explanation => invalidSentinel "DateTime" reason explanation
  | .valid isoString zone =>
    .cons TRANSFER_TYPE_KEY (.string "DateTime") <|
      .cons "__isoString" (.string isoString) <|
        match zone with
        | some name => .cons "__zone" (.string name) .nil
        | none => .nil

/-- `toObject` of a duration. -/
def durationValues : List (String × P) → Fields P B
  | [] => .nil
  | (unit, amount) :: rest => .cons unit (.other amount) (durationValues rest)

/-- The marker of a luxon value, made of the fresh objects from `n` on, and the next fresh one. -/
def encodeLuxonValue (value : Luxon P) (n : ℕ) : Value P B × ℕ :=
  match value with
  | .dateTime value => (.plain n (dateTimeToSentinel value), n + 1)
  | .duration values =>
    (.plain n <| .cons TRANSFER_TYPE_KEY (.string "Duration") <|
      .cons "__values" (.plain (n + 1) (durationValues values)) .nil, n + 2)
  | .invalidDuration reason explanation =>
    (.plain n (invalidSentinel "Duration" reason explanation), n + 1)
  | .interval start stop =>
    (.plain n <| .cons TRANSFER_TYPE_KEY (.string "Interval") <|
      .cons "__start" (.plain (n + 1) (dateTimeToSentinel start)) <|
        .cons "__end" (.plain (n + 2) (dateTimeToSentinel stop)) .nil, n + 3)
  | .invalidInterval reason explanation =>
    (.plain n (invalidSentinel "Interval" reason explanation), n + 1)

/-! ## The guest's walk -/

/-- The wrapper of data that has framing keys. -/
def escaped (id : ℕ) (value : Value P B) : Value P B :=
  .plain id <| .cons TRANSFER_ESCAPED_KEY (.boolean true) <| .cons TRANSFER_VALUE_KEY value .nil

/-- The wrapper of data that the host does not walk. -/
def opaqueValue (id : ℕ) (value : Value P B) : Value P B :=
  .plain id <| .cons TRANSFER_ESCAPED_KEY (.boolean true) <|
    .cons TRANSFER_OPAQUE_KEY (.boolean true) <| .cons TRANSFER_VALUE_KEY value .nil

/-- An object with framing keys is escaped. -/
def escapeCollision (collides : Bool) (id : ℕ) : Fields P B × ℕ → Value P B × ℕ
  | (result, n) =>
    if collides then (escaped n (.plain id result), n + 1) else (.plain id result, n)

mutual

/-- The guest's walk, whose objects are the fresh ones from `n` on. -/
def prepare : Value P B → ℕ → Value P B × ℕ
  | .array _ items, n =>
    let walked := prepareItems items (n + 1)
    (.array n walked.1, walked.2)
  | .plain _ fields, n =>
    escapeCollision (fields.keys.any (TRANSFER_FRAMING_KEYS.contains ·)) n
      (prepareFields fields (n + 1))
  | .inst id fields, n => (opaqueValue n (.inst id fields), n + 1)
  | .luxon value, n => encodeLuxonValue value n
  | .undefined, n => (.undefined, n)
  | .null, n => (.null, n)
  | .boolean b, n => (.boolean b, n)
  | .string s, n => (.string s, n)
  | .other p, n => (.other p, n)
  | .builtin id kind contents, n => (.builtin id kind contents, n)

/-- `map` steps over the holes. -/
def prepareItems : Items P B → ℕ → Items P B × ℕ
  | .nil, n => (.nil, n)
  | .hole rest, n =>
    let others := prepareItems rest n
    (.hole others.1, others.2)
  | .item value rest, n =>
    let walked := prepare value n
    let others := prepareItems rest walked.2
    (.item walked.1 others.1, others.2)

def prepareFields : Fields P B → ℕ → Fields P B × ℕ
  | .nil, n => (.nil, n)
  | .cons key value rest, n =>
    let walked := prepare value n
    let others := prepareFields rest walked.2
    (.assign key walked.1 others.1, others.2)

end

attribute [grind =] prepare prepareItems prepareFields

mutual

/-- A number above all identities of a value. -/
def Value.fresh : Value P B → ℕ
  | .array id items => max (id + 1) items.fresh
  | .plain id fields => max (id + 1) fields.fresh
  | .builtin id _ contents => max (id + 1) contents.fresh
  | .inst id fields => max (id + 1) fields.fresh
  | .undefined | .null | .boolean _ | .string _ | .other _ | .luxon _ => 0

def Items.fresh : Items P B → ℕ
  | .nil => 0
  | .hole rest => rest.fresh
  | .item value rest => max value.fresh rest.fresh

def Fields.fresh : Fields P B → ℕ
  | .nil => 0
  | .cons _ value rest => max value.fresh rest.fresh

end

/-- `__prepareForTransfer`. -/
def prepareForTransfer (value : Value P B) : Value P B :=
  (prepare value value.fresh).1

/-! ## Structured clone -/

section Clone

-- The own fields of luxon instances, and the identities of the objects they become.
variable (flatten : Luxon P → ℕ × Fields P B)

mutual

/-- Structured clone gives each object a copy, which stands under the same identity here. Instances
become plain objects. -/
def Value.clone : Value P B → Value P B
  | .array id items => .array id items.clone
  | .plain id fields => .plain id fields.clone
  | .builtin id kind contents => .builtin id kind contents.clone
  | .inst id fields => .plain id fields.clone
  | .luxon value => .plain (flatten value).1 (flatten value).2
  | .undefined => .undefined
  | .null => .null
  | .boolean b => .boolean b
  | .string s => .string s
  | .other p => .other p

def Items.clone : Items P B → Items P B
  | .nil => .nil
  | .hole rest => .hole rest.clone
  | .item value rest => .item value.clone rest.clone

def Fields.clone : Fields P B → Fields P B
  | .nil => .nil
  | .cons key value rest => .cons key value.clone rest.clone

end

attribute [grind =] Value.clone Items.clone Fields.clone

end Clone

/-! ## The host's walk -/

/-- The objects that are visited, with their results. -/
abbrev Seen (P B : Type) := List (ℕ × Value P B)

/-- An object that is visited is not walked again. -/
def Seen.once (seen : Seen P B) (id : ℕ) (walk : Value P B × Seen P B) : Value P B × Seen P B :=
  match seen.lookup id with
  | some result => (result, seen)
  | none => walk

/-- The copy of an array. It is recorded after its elements, which do not contain it. -/
def recordArray (id : ℕ) : Items P B × Seen P B → Value P B × Seen P B
  | (result, seen) => (.array id result, (id, .array id result) :: seen)

/-- The copy of a plain object, recorded like that of an array. -/
def recordPlain (id : ℕ) : Fields P B × Seen P B → Value P B × Seen P B
  | (result, seen) => (.plain id result, (id, .plain id result) :: seen)

section Unwrap

variable (decode : Value P B → Value P B)

mutual

def unwrapValue : Value P B → Seen P B → Value P B × Seen P B
  | .array id items, seen => seen.once id (recordArray id (unwrapItems items seen))
  | .plain id fields, seen =>
    seen.once id <|
      if isTransferSentinel fields then (decode (.plain id fields), seen)
      else if isEscapedTransferValue fields then
        unwrapEscaped (isOpaqueTransferValue fields) fields seen
      else recordPlain id (unwrapFields fields seen)
  | .undefined, seen => (.undefined, seen)
  | .null, seen => (.null, seen)
  | .boolean b, seen => (.boolean b, seen)
  | .string s, seen => (.string s, seen)
  | .other p, seen => (.other p, seen)
  | .builtin id kind contents, seen => (.builtin id kind contents, seen)
  | .inst id fields, seen => (.inst id fields, seen)
  | .luxon value, seen => (.luxon value, seen)

def unwrapItems : Items P B → Seen P B → Items P B × Seen P B
  | .nil, seen => (.nil, seen)
  | .hole rest, seen =>
    let others := unwrapItems rest seen
    (.hole others.1, others.2)
  | .item value rest, seen =>
    let walked := unwrapValue value seen
    let others := unwrapItems rest walked.2
    (.item walked.1 others.1, others.2)

def unwrapFields : Fields P B → Seen P B → Fields P B × Seen P B
  | .nil, seen => (.nil, seen)
  | .cons key value rest, seen =>
    let walked := unwrapValue value seen
    let others := unwrapFields rest walked.2
    (.assign key walked.1 others.1, others.2)

/-- What is escaped: the value at `__value`. -/
def unwrapEscaped (isOpaque : Bool) : Fields P B → Seen P B → Value P B × Seen P B
  | .nil, seen => (.undefined, seen)
  | .cons key value rest, seen =>
    if key = TRANSFER_VALUE_KEY then
      if isOpaque then (value, seen) else unwrapPayload value seen
    else unwrapEscaped isOpaque rest seen

/-- A payload that is not opaque: an object is data whatever its keys are. -/
def unwrapPayload : Value P B → Seen P B → Value P B × Seen P B
  | .array id items, seen => seen.once id (recordArray id (unwrapItems items seen))
  | .plain id fields, seen => recordPlain id (unwrapFields fields seen)
  | .undefined, seen => (.undefined, seen)
  | .null, seen => (.null, seen)
  | .boolean b, seen => (.boolean b, seen)
  | .string s, seen => (.string s, seen)
  | .other p, seen => (.other p, seen)
  | .builtin id kind contents, seen => (.builtin id kind contents, seen)
  | .inst id fields, seen => (.inst id fields, seen)
  | .luxon value, seen => (.luxon value, seen)

end

attribute [grind =] unwrapValue unwrapItems unwrapFields

/-! ## The host's test -/

/-- An object that is visited is not tested again. -/
def testOnce (seen : List ℕ) (id : ℕ) (test : List ℕ → Bool × List ℕ) : Bool × List ℕ :=
  if id ∈ seen then (false, seen) else test (id :: seen)

mutual

/-- Whether a value has something to rebuild, and the objects that are visited. -/
def holdsSentinel : Value P B → List ℕ → Bool × List ℕ
  | .array id items, seen => testOnce seen id fun seen => holdsSentinelItems items seen
  | .plain id fields, seen => testOnce seen id fun seen =>
    if isTransferSentinel fields || isEscapedTransferValue fields then (true, seen)
    else holdsSentinelFields fields seen
  | .builtin id _ _, seen => testOnce seen id fun seen => (false, seen)
  | .inst id _, seen => testOnce seen id fun seen => (false, seen)
  | .undefined, seen | .null, seen | .boolean _, seen | .string _, seen | .other _, seen
  | .luxon _, seen => (false, seen)

/-- A hole reads as `undefined`. -/
def holdsSentinelItems : Items P B → List ℕ → Bool × List ℕ
  | .nil, seen => (false, seen)
  | .hole rest, seen => holdsSentinelItems rest seen
  | .item value rest, seen =>
    let tested := holdsSentinel value seen
    if tested.1 then tested else holdsSentinelItems rest tested.2

def holdsSentinelFields : Fields P B → List ℕ → Bool × List ℕ
  | .nil, seen => (false, seen)
  | .cons _ value rest, seen =>
    let tested := holdsSentinel value seen
    if tested.1 then tested else holdsSentinelFields rest tested.2

end

/-- Without a marker the value is given back as it is. -/
def unwrapTransferSentinels (value : Value P B) : Value P B :=
  if (holdsSentinel value []).1 then (unwrapValue decode value []).1 else value

end Unwrap

end N8n.ExpressionRuntime.Transfer
