import Mathlib.Data.List.Infix
import Mathlib.Data.Rat.Defs
import Mathlib.Algebra.Order.Ring.Unbundled.Rat
import N8n.Common.JsString

/-!
# Filter conditions

A condition compares two values after both have been converted to the type of its operator. A value
that cannot be converted is an error, and most operators come with a negative form.

## Main definitions

* `Value`, `Conversions`: values, and what the conversions use of the language and its libraries
* `parseFilterConditionValues`: the two values after conversion, or the error
* `executeFilterCondition`: the answer of a condition
* `Complement`: an operation and its negative form
* `FailsBoth`: dates one of which is missing, or an operation that the type does not have

## Main results

* `executes_complements`: apart from these, a form gives the negation of the other or the same error
* `not_complements`: a date that is missing neither equals the other nor differs from it
-/

namespace N8n.Filters

/-! ## Values -/

inductive JsNumber
  | nan | infinite (positive : Bool) | finite (n : ℚ)
  deriving DecidableEq

namespace JsNumber

/-- `a === b` -/
def equals (a b : JsNumber) : Bool := a ≠ nan && a = b

/-- `a < b` -/
def less : JsNumber → JsNumber → Bool
  | finite a, finite b => a < b
  | infinite false, infinite true | infinite false, finite _ | finite _, infinite true => true
  | _, _ => false

/-- `a <= b` -/
def atMost (a b : JsNumber) : Bool := less a b || equals a b

end JsNumber

/-- A value. Objects have an identity, and a date may be invalid. -/
inductive Value
  | undefined
  | null
  | boolean (b : Bool)
  | number (n : JsNumber)
  | string (s : JsString)
  | array (ref : ℕ) (items : List Value)
  | object (ref : ℕ) (fields : List (JsString × Value))
  | date (ref : ℕ) (time : Option ℤ)
  | dateTime (ref : ℕ) (millis : Option ℤ)

/-- What the conversions use: `Number`, `String`, `JSON.stringify`, `JSON.parse`, the parser of
object literals, the formats of luxon with its properties of a date, and lower case. -/
structure Conversions where
  toNumber : Value → JsNumber
  toText : Value → JsString
  stringify : Value → Option JsString
  parse : JsString → Option Value
  parseJSObject : JsString → Option Value
  fromJSDate : Option ℤ → Option Value
  fromISO : JsString → Option Value
  fromHTTP : JsString → Option Value
  fromRFC2822 : JsString → Option Value
  fromSQL : JsString → Option Value
  fromDateParse : JsString → Option Value
  dateTimeKeys : ℕ
  toLocaleLowerCase : JsString → JsString

namespace Value

/-- `typeof value` -/
def typeOf : Value → JsString
  | undefined => js "undefined".toList
  | boolean _ => js "boolean".toList
  | number _ => js "number".toList
  | string _ => js "string".toList
  | null | array _ _ | object _ _ | date _ _ | dateTime _ _ => js "object".toList

/-- `Boolean(value)` -/
def truthy : Value → Bool
  | undefined | null => false
  | boolean b => b
  | number n => n ≠ .nan && n ≠ .finite 0
  | string s => s ≠ []
  | array _ _ | object _ _ | date _ _ | dateTime _ _ => true

/-- `value === undefined || value === null` -/
def isNullish : Value → Bool
  | undefined | null => true
  | _ => false

def isNaN : Value → Bool
  | number n => n = .nan
  | _ => false

/-- `a === b` -/
def strictEquals : Value → Value → Bool
  | undefined, undefined | null, null => true
  | boolean a, boolean b => a = b
  | number a, number b => a.equals b
  | string a, string b => a = b
  | array r _, array r' _ | object r _, object r' _ | date r _, date r' _
  | dateTime r _, dateTime r' _ => r = r'
  | _, _ => false

/-- The comparison of `includes`, for which `NaN` equals itself. -/
def sameValueZero (a b : Value) : Bool := (a.isNaN && b.isNaN) || a.strictEquals b

def isArray : Value → Bool
  | array _ _ => true
  | _ => false

/-- `isObject` of lodash -/
def isObject : Value → Bool
  | array _ _ | object _ _ | date _ _ | dateTime _ _ => true
  | _ => false

/-- The elements of an array. A missing array is read as an empty one. -/
def elements : Value → List Value
  | array _ items => items
  | _ => []

/-- `Object.keys(value).length` -/
def keyCount (lib : Conversions) : Value → ℕ
  | object _ fields => fields.length
  | array _ items => items.length
  | dateTime _ _ => lib.dateTimeKeys
  | _ => 0

/-- `typeof value === 'string' && value.startsWith('=')` -/
def isExpression : Value → Bool
  | string (c :: _) => c = ascii '='
  | _ => false

end Value

/-! ## Conversion -/

inductive FilterOperatorType
  | string | number | boolean | array | object | dateTime | any
  deriving DecidableEq

/-- The operations, with those that no type has. -/
inductive Operation
  | exists | notExists | empty | notEmpty | equals | notEquals | contains | notContains
  | startsWith | notStartsWith | endsWith | notEndsWith | regex | notRegex
  | gt | lt | gte | lte | after | before | afterOrEquals | beforeOrEquals | isTrue | isFalse
  | lengthEquals | lengthNotEquals | lengthGt | lengthLt | lengthGte | lengthLte
  | other (name : String)
  deriving DecidableEq

structure FilterOperatorValue where
  type : FilterOperatorType
  operation : Operation
  rightType : Option FilterOperatorType := none
  singleValue : Bool := false

structure FilterConditionValue where
  leftValue : Value
  operator : FilterOperatorValue
  rightValue : Value

inductive TypeValidation
  | strict | loose
  deriving DecidableEq

structure FilterOptionsValue where
  caseSensitive : Bool
  typeValidation : TypeValidation
  version : ℕ := 1

inductive ErrorFormat
  | full | inline

structure FilterConditionMetadata where
  index : ℕ := 0
  unresolvedExpressions : Bool := false
  itemIndex : ℕ := 0
  errorFormat : ErrorFormat := .full

structure FilterError where
  message : JsString
  description : JsString

/-- What the evaluation of an operation may throw. -/
inductive EngineError
  | typeError
  | regex (message : JsString)

inductive Thrown
  | filterError (error : FilterError)
  | engineError (error : EngineError)

variable (lib : Conversions)

def tryToParseNumber (value : Value) : Option Value :=
  if lib.toNumber value = .nan then none else some (.number (lib.toNumber value))

def tryToParseString (value : Value) : Option Value :=
  match value with
  | .undefined => some (.string [])
  | .boolean _ | .number _ | .string _ => some (.string (lib.toText value))
  | .null | .array _ _ | .object _ _ | .date _ _ | .dateTime _ _ =>
    (lib.stringify value).map .string

def tryToParseBoolean (value : Value) : Option Value :=
  match value with
  | .boolean b => some (.boolean b)
  | .string s =>
    let word := lib.toLocaleLowerCase s
    if word = js "true".toList ∨ word = js "false".toList then
      some (.boolean (word = js "true".toList))
    else if trim s = [] then none
    else asNumber
  | _ => asNumber
where
  asNumber : Option Value :=
    if (lib.toNumber value).equals (.finite 0) then some (.boolean false)
    else if (lib.toNumber value).equals (.finite 1) then some (.boolean true)
    else none

def tryToParseDateTime (value : Value) : Option Value :=
  match value with
  | .dateTime ref (some millis) => some (.dateTime ref (some millis))
  | .date _ time => lib.fromJSDate time <|> fromText
  | _ => fromText
where
  fromText : Option Value :=
    let dateString := trim (lib.toText value)
    lib.fromISO dateString <|> lib.fromHTTP dateString <|> lib.fromRFC2822 dateString <|>
      lib.fromSQL dateString <|> lib.fromDateParse dateString

def tryToParseArray (value : Value) : Option Value :=
  if value.isArray then some value
  else
    let text := lib.toText value
    let quoted := text.map fun c => if c = ascii '\'' then ascii '"' else c
    (lib.parse text <|> lib.parse quoted).filter Value.isArray

def tryToParseObject (value : Value) : Option Value :=
  if value.isObject && !value.isArray then some value
  else
    let text := lib.toText value
    (lib.parse text <|> lib.parseJSObject text).filter fun o =>
      o.typeOf = js "object".toList && !o.isArray

/-- The value after conversion, `none` where it is not valid. -/
def validateFieldType (value : Value) (type : FilterOperatorType) (strict parseStrings : Bool) :
    Option Value :=
  match type with
  | .string =>
    if !parseStrings then some value
    else if strict && value.typeOf ≠ js "string".toList then none
    else tryToParseString lib value
  | .number =>
    if strict && value.typeOf ≠ js "number".toList then none else tryToParseNumber lib value
  | .boolean =>
    if strict && value.typeOf ≠ js "boolean".toList then none else tryToParseBoolean lib value
  | .dateTime => tryToParseDateTime lib value
  | .object => if strict && !value.isObject then none else tryToParseObject lib value
  | .array => if strict && !value.isArray then none else tryToParseArray lib value
  | .any => some value

def parseSingleFilterValue (value : Value) (type : FilterOperatorType) (strict : Bool)
    (version : ℕ) : Option Value :=
  if type = .any || value.isNullish then some value
  else if type = .boolean && !strict then
    (if 2 ≤ version then validateFieldType lib value type false false else none) <|>
      some (.boolean value.truthy)
  else if type = .number && value.isNaN then some value
  else if type = .number && isEmpty && 3 ≤ version then some .null
  else validateFieldType lib value type strict true
where
  isEmpty : Bool :=
    match value with
    | .string s => trim s = []
    | .array _ items => items = []
    | _ => false

/-! ## Errors -/

def FilterOperatorType.text : FilterOperatorType → JsString
  | .string => js "string".toList
  | .number => js "number".toList
  | .boolean => js "boolean".toList
  | .array => js "array".toList
  | .object => js "object".toList
  | .dateTime => js "dateTime".toList
  | .any => js "any".toList

def withIndefiniteArticle (noun : JsString) : JsString :=
  let article := if noun.head?.all (js "aeiou".toList).contains then js "an".toList else js ['a']
  article ++ js [' '] ++ noun

def suffix (metadata : FilterConditionMetadata) : JsString :=
  match metadata.errorFormat with
  | .full => js s!"[condition {metadata.index}, item {metadata.itemIndex}]".toList
  | .inline => js s!"[item {metadata.itemIndex}]".toList

def composeInvalidTypeMessage (strict : Bool) (metadata : FilterConditionMetadata)
    (type fromType value : JsString) : JsString :=
  if strict then
    js "Wrong type: '".toList ++ value ++ js "' is ".toList ++ withIndefiniteArticle fromType ++
      js " but was expecting ".toList ++ withIndefiniteArticle type ++ js [' '] ++ suffix metadata
  else
    js "Conversion error: the ".toList ++ fromType ++ js " '".toList ++ value ++
      js "' can't be converted to ".toList ++ withIndefiniteArticle type ++ js [' '] ++
      suffix metadata

def getTypeDescription (strict : Bool) : JsString :=
  if strict then
    js ("Try changing the type of comparison. " ++
      "Alternatively you can enable 'Convert types where required'.").toList
  else js "Try changing the type of the comparison.".toList

def composeInvalidTypeDescription (strict : Bool) (type : FilterOperatorType)
    (valuePosition : JsString) : JsString :=
  let convertionFunction : JsString :=
    match type with
    | .string => js ".toString()".toList
    | .number => js ".toNumber()".toList
    | .boolean => js ".toBoolean()".toList
    | _ => []
  if strict ∧ convertionFunction ≠ [] then
    js "\n<p>Try either:</p>\n<ol>\n".toList ++
      js "  <li>Enabling 'Convert types where required'</li>\n".toList ++
      js "  <li>Converting the ".toList ++ valuePosition ++ js " field to ".toList ++
      withIndefiniteArticle type.text ++ js " by adding <code>".toList ++ convertionFunction ++
      js "</code></li>\n</ol>\n\t\t\t".toList
  else getTypeDescription strict

/-- The value can be converted, or is an expression that is not resolved yet. -/
def isValid (metadata : FilterConditionMetadata) (value : Value) (parsed : Option Value) : Bool :=
  parsed.isSome || (metadata.unresolvedExpressions && value.isExpression)

/-- Both values after conversion. The failure is returned, not thrown. -/
def parseFilterConditionValues (condition : FilterConditionValue) (options : FilterOptionsValue)
    (metadata : FilterConditionMetadata) : Except FilterError (Value × Value) :=
  let strict := options.typeValidation = .strict
  let operator := condition.operator
  let rightType := operator.rightType.getD operator.type
  let parsedLeft :=
    parseSingleFilterValue lib condition.leftValue operator.type strict options.version
  let parsedRight :=
    parseSingleFilterValue lib condition.rightValue rightType strict options.version
  let leftValid := isValid metadata condition.leftValue parsedLeft
  let rightValid := operator.singleValue || isValid metadata condition.rightValue parsedRight
  let leftFrom := condition.leftValue.typeOf
  let rightFrom := condition.rightValue.typeOf
  if !leftValid && !rightValid && leftFrom = rightFrom then
    .error {
      message := js "Comparison type expects ".toList ++ withIndefiniteArticle operator.type.text ++
        js " but both fields are ".toList ++ withIndefiniteArticle leftFrom
      description := getTypeDescription strict }
  else if !leftValid then
    .error {
      message := composeInvalidTypeMessage strict metadata operator.type.text leftFrom
        (lib.toText condition.leftValue)
      description := composeInvalidTypeDescription strict operator.type (js "first".toList) }
  else if !rightValid then
    .error {
      message := composeInvalidTypeMessage strict metadata rightType.text rightFrom
        (lib.toText condition.rightValue)
      description := composeInvalidTypeDescription strict rightType (js "second".toList) }
  else .ok (parsedLeft.getD .undefined, parsedRight.getD .undefined)

/-! ## Evaluation -/

def arrayContainsValue (array : List Value) (value : Value) (ignoreCase : Bool) : Bool :=
  match ignoreCase, value with
  | true, .string text => array.any fun
    | .string item => lib.toLocaleLowerCase item = lib.toLocaleLowerCase text
    | _ => false
  | _, _ => array.any fun item => item.sameValueZero value

structure PreparedFilterCondition where
  existing : Bool
  ignoreCase : Bool
  leftValue : Value
  rightValue : Value

def prepareFilterCondition (condition : FilterConditionValue) (options : FilterOptionsValue)
    (metadata : FilterConditionMetadata) : Except Thrown PreparedFilterCondition :=
  match parseFilterConditionValues lib condition options metadata with
  | .error error => .error (.filterError error)
  | .ok (leftValue, rightValue) => .ok {
      existing := !leftValue.isNullish && !leftValue.isNaN
      ignoreCase := !options.caseSensitive
      leftValue := leftValue
      rightValue := rightValue }

def evaluateExistsOperation (operation : Operation) (existing : Bool) : Option Bool :=
  match operation with
  | .exists => some existing
  | .notExists => some !existing
  | _ => none

/-- The flags that may follow a regular expression. -/
def isRegexFlag (c : CodeUnit) : Bool := (js "gimusy".toList).contains c

def isLineTerminator (c : CodeUnit) : Bool :=
  c = 0xA || c = 0xD || c = 0x2028 || c = 0x2029

/-- The source and the flags of `/source/flags`. Flags have no slash in them, so that the last
slash ends the source. -/
def parseRegexLiteral (literal : JsString) : JsString × JsString :=
  match literal with
  | [] => (literal, [])
  | first :: rest =>
    let flags := (rest.reverse.takeWhile isRegexFlag).reverse
    match rest.reverse.dropWhile isRegexFlag with
    | [] => (literal, [])
    | last :: source =>
      if first = ascii '/' ∧ last = ascii '/' ∧ ¬ source.any isLineTerminator then
        (source.reverse, flags)
      else (literal, [])

/-- The strings to compare. A left value is a string or missing here. -/
def prepareStringFilterValues (operation : Operation) (prepared : PreparedFilterCondition) :
    JsString × Value :=
  let left :=
    match prepared.leftValue with
    | .string s => if prepared.ignoreCase then lib.toLocaleLowerCase s else s
    | _ => []
  let right :=
    match prepared.rightValue with
    | .string s =>
      if prepared.ignoreCase && !(operation = .regex || operation = .notRegex) then
        .string (lib.toLocaleLowerCase s)
      else .string s
    | .undefined | .null => .string []
    | value => value
  (left, right)

/-- The test of a source on an input with flags, which fails with a message of the engine. -/
abbrev RegexTest := JsString → JsString → JsString → Except JsString Bool

/-- What a case of the `switch` over the type answers, `none` where it is left without an answer. -/
abbrev Answer := Option (Except EngineError Bool)

def answer (b : Bool) : Answer := some (.ok b)

def executeString (regexTest : RegexTest) (operation : Operation) (left : JsString)
    (right : Value) : Answer :=
  match operation with
  | .empty => answer (left.length = 0)
  | .notEmpty => answer (left.length ≠ 0)
  | .equals => answer ((Value.string left).strictEquals right)
  | .notEquals => answer !(Value.string left).strictEquals right
  | .contains => answer (decide (lib.toText right <:+: left))
  | .notContains => answer !decide (lib.toText right <:+: left)
  | .startsWith => answer (decide (lib.toText right <+: left))
  | .notStartsWith => answer !decide (lib.toText right <+: left)
  | .endsWith => answer (decide (lib.toText right <:+ left))
  | .notEndsWith => answer !decide (lib.toText right <:+ left)
  | .regex =>
    let (source, flags) := parseRegexLiteral (lib.toText right)
    some ((regexTest source left flags).mapError .regex)
  | .notRegex =>
    let (source, flags) := parseRegexLiteral (lib.toText right)
    some (((regexTest source left flags).mapError .regex).map (!·))
  | _ => none

def executeNumber (operation : Operation) (existing : Bool) (left right : Value) : Answer :=
  match operation with
  | .empty => answer !existing
  | .notEmpty => answer existing
  | .equals => answer (left.strictEquals right)
  | .notEquals => answer !left.strictEquals right
  | .gt => answer ((lib.toNumber right).less (lib.toNumber left))
  | .lt => answer ((lib.toNumber left).less (lib.toNumber right))
  | .gte => answer ((lib.toNumber right).atMost (lib.toNumber left))
  | .lte => answer ((lib.toNumber left).atMost (lib.toNumber right))
  | _ => none

/-- `value.toMillis()`, which only dates of luxon have. -/
def Value.toMillis : Value → Except EngineError JsNumber
  | dateTime _ (some millis) => .ok (.finite millis)
  | dateTime _ none => .ok .nan
  | _ => .error .typeError

def compareMillis (test : JsNumber → JsNumber → Bool) (left right : Value) :
    Except EngineError Bool := do
  return test (← left.toMillis) (← right.toMillis)

def executeDateTime (operation : Operation) (existing : Bool) (left right : Value) : Answer :=
  match operation with
  | .empty => answer !existing
  | .notEmpty => answer existing
  | _ =>
    if !left.truthy || !right.truthy then answer false
    else
      match operation with
      | .equals => some (compareMillis JsNumber.equals left right)
      | .notEquals => some (compareMillis (fun a b => !a.equals b) left right)
      | .after => some (compareMillis (fun a b => b.less a) left right)
      | .before => some (compareMillis JsNumber.less left right)
      | .afterOrEquals => some (compareMillis (fun a b => b.atMost a) left right)
      | .beforeOrEquals => some (compareMillis JsNumber.atMost left right)
      | _ => none

def executeBoolean (operation : Operation) (existing : Bool) (left right : Value) : Answer :=
  match operation with
  | .empty => answer !existing
  | .notEmpty => answer existing
  | .isTrue => answer left.truthy
  | .isFalse => answer !left.truthy
  | .equals => answer (left.strictEquals right)
  | .notEquals => answer !left.strictEquals right
  | _ => none

def executeArray (operation : Operation) (ignoreCase : Bool) (left : List Value)
    (right : Value) : Answer :=
  let length := JsNumber.finite left.length
  match operation with
  | .contains => answer (arrayContainsValue lib left right ignoreCase)
  | .notContains => answer !arrayContainsValue lib left right ignoreCase
  | .lengthEquals => answer ((Value.number length).strictEquals right)
  | .lengthNotEquals => answer !(Value.number length).strictEquals right
  | .lengthGt => answer ((lib.toNumber right).less length)
  | .lengthLt => answer (length.less (lib.toNumber right))
  | .lengthGte => answer ((lib.toNumber right).atMost length)
  | .lengthLte => answer (length.atMost (lib.toNumber right))
  | .empty => answer (left.length = 0)
  | .notEmpty => answer (left.length ≠ 0)
  | _ => none

def executeObject (operation : Operation) (left : Value) : Answer :=
  match operation with
  | .empty => answer (!left.truthy || left.keyCount lib = 0)
  | .notEmpty => answer (left.truthy && left.keyCount lib ≠ 0)
  | _ => none

/-- The cases of the `switch` over the type. -/
def executeByType (regexTest : RegexTest) (operator : FilterOperatorValue)
    (prepared : PreparedFilterCondition) : Answer :=
  let operation := operator.operation
  let left := prepared.leftValue
  let right := prepared.rightValue
  match operator.type with
  | .string =>
    let (left, right) := prepareStringFilterValues lib operation prepared
    executeString lib regexTest operation left right
  | .number => executeNumber lib operation prepared.existing left right
  | .dateTime => executeDateTime operation prepared.existing left right
  | .boolean => executeBoolean operation prepared.existing left right
  | .array => executeArray lib operation prepared.ignoreCase left.elements right
  | .object => executeObject lib operation left
  | .any => none

/-- The answer for a condition. An operation that the type does not have is answered by `false`. -/
def executeFilterCondition (regexTest : RegexTest) (condition : FilterConditionValue)
    (options : FilterOptionsValue) (metadata : FilterConditionMetadata) : Except Thrown Bool :=
  match prepareFilterCondition lib condition options metadata with
  | .error thrown => .error thrown
  | .ok prepared =>
    match evaluateExistsOperation condition.operator.operation prepared.existing with
    | some result => .ok result
    | none =>
      ((executeByType lib regexTest condition.operator prepared).getD (.ok false)).mapError
        .engineError

/-! ## Complements -/

/-- The operations with a negative form. -/
inductive Complement
  | exists | empty | equals | contains | startsWith | endsWith | regex | lengthEquals
  deriving DecidableEq

namespace Complement

def positive : Complement → Operation
  | .exists => .exists
  | empty => .empty
  | equals => .equals
  | contains => .contains
  | startsWith => .startsWith
  | endsWith => .endsWith
  | regex => .regex
  | lengthEquals => .lengthEquals

def negative : Complement → Operation
  | .exists => .notExists
  | empty => .notEmpty
  | equals => .notEquals
  | contains => .notContains
  | startsWith => .notStartsWith
  | endsWith => .notEndsWith
  | regex => .notRegex
  | lengthEquals => .lengthNotEquals

end Complement

/-- The type has the operation and its negative form. -/
def FilterOperatorType.has : FilterOperatorType → Complement → Bool
  | _, .exists => true
  | .any, _ => false
  | _, .empty => true
  | .string, pair => pair ≠ .lengthEquals
  | .array, pair => pair = .contains || pair = .lengthEquals
  | .number, pair | .dateTime, pair | .boolean, pair => pair = .equals
  | .object, _ => false

def FilterOperatorValue.withOperation (operator : FilterOperatorValue) (operation : Operation) :
    FilterOperatorValue :=
  { operator with operation := operation }

def FilterConditionValue.withOperation (condition : FilterConditionValue) (operation : Operation) :
    FilterConditionValue :=
  { condition with operator := condition.operator.withOperation operation }

/-- The other answer, or the same error. -/
def negated {ε : Type} (result : Except ε Bool) : Except ε Bool := result.map (!·)

/-- Dates are compared and one is missing, or the type does not have the operation. -/
def FilterOperatorType.Fails (type : FilterOperatorType) (pair : Complement) (left right : Value) :
    Prop :=
  type.has pair = false ∨
    type = .dateTime ∧ pair = .equals ∧ (left.truthy = false ∨ right.truthy = false)

def FailsBoth (condition : FilterConditionValue) (options : FilterOptionsValue)
    (metadata : FilterConditionMetadata) (pair : Complement) : Prop :=
  ∃ left right, parseFilterConditionValues lib condition options metadata = .ok (left, right) ∧
    condition.operator.type.Fails pair left right

theorem mapError_negated {ε ε' : Type} (f : ε → ε') (result : Except ε Bool) :
    (negated result).mapError f = negated (result.mapError f) := by
  cases result <;> rfl

theorem compareMillis_not (test : JsNumber → JsNumber → Bool) (left right : Value) :
    compareMillis (fun a b => !test a b) left right = negated (compareMillis test left right) := by
  unfold compareMillis
  cases left.toMillis with
  | error thrown => rfl
  | ok a =>
    cases right.toMillis with
    | error thrown => rfl
    | ok b => rfl

section Types

variable (regexTest : RegexTest) {pair : Complement} (hpair : pair ≠ .exists)
  {operator : FilterOperatorValue} (prepared : PreparedFilterCondition)

include hpair

theorem executeByType_negative
    (h : ¬ operator.type.Fails pair prepared.leftValue prepared.rightValue) :
    ∃ result,
      executeByType lib regexTest (operator.withOperation pair.positive) prepared = some result ∧
      executeByType lib regexTest (operator.withOperation pair.negative) prepared =
        some (negated result) := by
  obtain ⟨type, operation, rightType, singleValue⟩ := operator
  obtain ⟨hhas, hdate⟩ := not_or.mp h
  cases type with
  | dateTime =>
    cases pair with
    | «exists» => exact absurd rfl hpair
    | empty => exact ⟨_, rfl, congrArg answer (Bool.not_not _).symm⟩
    | equals =>
      have hguard : (!prepared.leftValue.truthy || !prepared.rightValue.truthy) = false := by
        simpa using hdate
      simp only [executeByType, executeDateTime, Complement.positive, Complement.negative, hguard,
        compareMillis_not]
      exact ⟨_, rfl, rfl⟩
    | _ => exact absurd rfl hhas
  | any => cases pair <;> first | exact absurd rfl hpair | exact absurd rfl hhas
  | number | boolean =>
    cases pair with
    | «exists» => exact absurd rfl hpair
    | empty => exact ⟨_, rfl, congrArg answer (Bool.not_not _).symm⟩
    | _ => first | exact ⟨_, rfl, rfl⟩ | exact absurd rfl hhas
  | string | array =>
    cases pair with
    | «exists» => exact absurd rfl hpair
    | empty => exact ⟨_, rfl, congrArg answer decide_not⟩
    | _ => first | exact ⟨_, rfl, rfl⟩ | exact absurd rfl hhas
  | object =>
    cases pair with
    | «exists» => exact absurd rfl hpair
    | empty => exact ⟨_, rfl, by simp [executeByType, executeObject, Complement.negative, answer,
        negated, Except.map, FilterOperatorValue.withOperation]⟩
    | _ => exact absurd rfl hhas

theorem executeByType_fails
    (h : operator.type.Fails pair prepared.leftValue prepared.rightValue) :
    (executeByType lib regexTest (operator.withOperation pair.positive) prepared).getD
        (.ok false) = .ok false ∧
      (executeByType lib regexTest (operator.withOperation pair.negative) prepared).getD
        (.ok false) = .ok false := by
  obtain ⟨type, operation, rightType, singleValue⟩ := operator
  rcases h with hhas | ⟨htype, heq, hmissing⟩
  · cases type with
    | dateTime =>
      -- a missing value is noticed before the operation is looked at
      cases pair with
      | «exists» => exact absurd rfl hpair
      | empty | equals => cases hhas
      | _ =>
        simp only [executeByType, executeDateTime, Complement.positive, Complement.negative]
        split_ifs
        · exact ⟨rfl, rfl⟩
        · exact ⟨rfl, rfl⟩
    | _ => cases pair <;> first | exact ⟨rfl, rfl⟩ | exact absurd rfl hpair | cases hhas
  · have hguard : (!prepared.leftValue.truthy || !prepared.rightValue.truthy) = true := by
      simpa using hmissing
    subst htype heq
    simp only [executeByType, executeDateTime, Complement.positive, Complement.negative, hguard]
    exact ⟨rfl, rfl⟩

end Types

section Execute

variable {lib} {regexTest : RegexTest} {condition : FilterConditionValue}
  {options : FilterOptionsValue} {metadata : FilterConditionMetadata}

/-- What is made of the converted values. -/
def prepared (options : FilterOptionsValue) (left right : Value) : PreparedFilterCondition :=
  ⟨!left.isNullish && !left.isNaN, !options.caseSensitive, left, right⟩

/-- The conversion does not look at the operation. -/
theorem execute_of_error {error : FilterError} (operation : Operation)
    (h : parseFilterConditionValues lib condition options metadata = .error error) :
    executeFilterCondition lib regexTest (condition.withOperation operation) options metadata =
      .error (.filterError error) := by
  have hparse : parseFilterConditionValues lib (condition.withOperation operation) options
      metadata = .error error := h
  simp only [executeFilterCondition, prepareFilterCondition, hparse]

theorem execute_of_ok {left right : Value} (operation : Operation)
    (h : parseFilterConditionValues lib condition options metadata = .ok (left, right)) :
    executeFilterCondition lib regexTest (condition.withOperation operation) options metadata =
      match evaluateExistsOperation operation (prepared options left right).existing with
      | some result => .ok result
      | none => ((executeByType lib regexTest (condition.operator.withOperation operation)
          (prepared options left right)).getD (.ok false)).mapError .engineError := by
  have hparse : parseFilterConditionValues lib (condition.withOperation operation) options
      metadata = .ok (left, right) := h
  simp only [executeFilterCondition, prepareFilterCondition, hparse]
  rfl

end Execute

/-- The forms of an operation are complements, or both fail. -/
theorem executes_complements (regexTest : RegexTest) (condition : FilterConditionValue)
    (options : FilterOptionsValue) (metadata : FilterConditionMetadata) (pair : Complement) :
    let execute := fun operation =>
      executeFilterCondition lib regexTest (condition.withOperation operation) options metadata
    (FailsBoth lib condition options metadata pair →
      execute pair.positive = .ok false ∧ execute pair.negative = .ok false) ∧
    (¬ FailsBoth lib condition options metadata pair →
      execute pair.negative = negated (execute pair.positive)) := by
  intro execute
  cases hvalues : parseFilterConditionValues lib condition options metadata with
  | error error =>
    refine ⟨?_, fun _ => ?_⟩
    · rintro ⟨left, right, hok, -⟩
      cases hvalues.symm.trans hok
    · simp only [execute, execute_of_error _ hvalues]
      rfl
  | ok values =>
    obtain ⟨left, right⟩ := values
    simp only [execute, execute_of_ok _ hvalues]
    by_cases hpair : pair = .exists
    · subst hpair
      refine ⟨?_, fun _ => rfl⟩
      rintro ⟨left, right, -, hhas | ⟨-, heq, -⟩⟩
      · cases condition.operator.type <;> cases hhas
      · cases heq
    · have hexists : ∀ existing, evaluateExistsOperation pair.positive existing = none ∧
          evaluateExistsOperation pair.negative existing = none := by
        intro existing
        cases pair with
        | «exists» => exact absurd rfl hpair
        | _ => exact ⟨rfl, rfl⟩
      simp only [(hexists _).1, (hexists _).2]
      refine ⟨?_, fun hnot => ?_⟩
      · rintro ⟨left', right', hok, hfails⟩
        obtain ⟨rfl, rfl⟩ := Prod.mk.inj (Except.ok.inj (hvalues.symm.trans hok))
        obtain ⟨hpositive, hnegative⟩ :=
          executeByType_fails lib regexTest hpair (prepared options left right) hfails
        rw [hpositive, hnegative]
        exact ⟨rfl, rfl⟩
      · obtain ⟨result, hpositive, hnegative⟩ := executeByType_negative lib regexTest hpair
          (prepared options left right) fun hfails => hnot ⟨left, right, hvalues, hfails⟩
        rw [hpositive, hnegative]
        exact mapError_negated _ _

/-- Conversions on a value that is missing, which none of them looks at. -/
def noConversions : Conversions where
  toNumber _ := .nan
  toText _ := []
  stringify _ := none
  parse _ := none
  parseJSObject _ := none
  fromJSDate _ := none
  fromISO _ := none
  fromHTTP _ := none
  fromRFC2822 _ := none
  fromSQL _ := none
  fromDateParse _ := none
  dateTimeKeys := 0
  toLocaleLowerCase := id

/-- A date that is missing neither equals another one nor differs from it. -/
theorem not_complements :
    ¬ ∀ (lib : Conversions) (regexTest : RegexTest) (condition : FilterConditionValue)
      (options : FilterOptionsValue) (metadata : FilterConditionMetadata) (pair : Complement),
        executeFilterCondition lib regexTest (condition.withOperation pair.negative) options
          metadata =
        negated (executeFilterCondition lib regexTest (condition.withOperation pair.positive)
          options metadata) := by
  intro h
  have hfalse := h noConversions (fun _ _ _ => .ok true)
    ⟨.null, { type := .dateTime, operation := .equals }, .dateTime 0 (some 0)⟩
    { caseSensitive := true, typeValidation := .strict } {} .equals
  cases hfalse

end N8n.Filters
