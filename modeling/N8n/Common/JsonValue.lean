import Mathlib.Data.Rat.Defs

/-!
# JSON values

The values that workflows, stored rows and messages carry. A number is a finite one, so it is
modelled by a rational; an absent optional field is modelled by `Option`, not by a value.

## Main definitions

* `JsonValue`: JSON values
* `JsonValue.field`: a property of an object
* `isInteger`: `Number.isInteger` on a finite number
-/

namespace N8n

/-- A JSON value. The fields of an object are kept in order. -/
inductive JsonValue
  | null
  | bool (b : Bool)
  | number (n : ℚ)
  | string (s : String)
  | array (items : List JsonValue)
  | object (fields : List (String × JsonValue))

namespace JsonValue

/-- The value of a property, `none` where the value is not an object or has no such property. -/
def field (name : String) : JsonValue → Option JsonValue
  | object fields => (fields.find? fun f => f.1 = name).map Prod.snd
  | _ => none

/-- The value is `null`. -/
def isNull : JsonValue → Bool
  | null => true
  | _ => false

end JsonValue

/-- `Number.isInteger` on a finite number. -/
def isInteger (n : ℚ) : Bool := n.den = 1

end N8n
