import N8n.Filters.FilterConditions
import N8n.Foundations.OrderedMap

/-!
# Filter validation

The validation of a filter parameter converts the values of every condition and catches the errors
that are thrown. The conversion returns its errors instead, so that no issue is ever reported.

## Main definitions

* `validateFilterParameter`: the issues of a filter, by the names of its conditions
* `Converts`: the values of a condition can be converted
* `Agrees`: an issue for each condition whose evaluation throws a filter error, and for no other

## Main results

* `agrees_iff`: the two agree exactly on filters that need no issue
* `not_agrees`: a text that is compared as a number
-/

namespace N8n.Filters

variable (lib : Conversions)

/-! ## Validation -/

structure FilterValue where
  options : FilterOptionsValue
  conditions : List FilterConditionValue

/-- The messages by the names of the conditions. -/
abbrev Issues := OrderedMap String (List JsString)

/-- The `try` around the conversion, and the `catch` that adds to the messages under a key. -/
def catchIssue (key : String) (issues : Issues)
    (attempt : Except Thrown (Except FilterError (Value × Value))) : Except Thrown Issues :=
  match attempt with
  | .ok _ => .ok issues
  | .error (.filterError error) =>
    match issues.get? key with
    | none => .error (.engineError .typeError)
    | some messages => .ok (issues.set key (messages ++ [error.message]))
  | .error _ => .ok issues

def issueKey (name : String) (index : ℕ) : String := s!"{name}.{index}"

def validateFilterParameter (name : String) (value : FilterValue) : Except Thrown Issues :=
  value.conditions.zipIdx.foldlM (fun issues (condition, index) =>
    catchIssue (issueKey name index) issues
      (.ok (parseFilterConditionValues lib condition value.options
        { index := index, unresolvedExpressions := true, errorFormat := .inline }))) .empty

/-- Both values can be converted, or the left one where the operator takes no other. -/
def Converts (options : FilterOptionsValue) (condition : FilterConditionValue) : Prop :=
  let operator := condition.operator
  let parse := fun value type =>
    parseSingleFilterValue lib value type (options.typeValidation = .strict) options.version
  (parse condition.leftValue operator.type).isSome ∧
    (operator.singleValue = true ∨
      (parse condition.rightValue (operator.rightType.getD operator.type)).isSome)

/-- Nothing is thrown, and issues are reported under the names of the conditions whose evaluation
throws a filter error. -/
def Agrees (regexTest : RegexTest) (name : String) (value : FilterValue) : Prop :=
  ∃ issues, validateFilterParameter lib name value = .ok issues ∧
    ∀ index condition, value.conditions[index]? = some condition → ∀ itemIndex,
      ((∃ message messages, issues.get? (issueKey name index) = some (message :: messages)) ↔
        ∃ error, executeFilterCondition lib regexTest condition value.options
          { index := index, itemIndex := itemIndex } = .error (.filterError error))

section Agreement

variable {lib} {regexTest : RegexTest} {condition : FilterConditionValue}
  {options : FilterOptionsValue}

/-- Nothing is thrown inside of the `try`. -/
theorem validateFilterParameter_eq (name : String) (value : FilterValue) :
    validateFilterParameter lib name value = .ok .empty := by
  unfold validateFilterParameter
  induction value.conditions.zipIdx with
  | nil => rfl
  | cons entry entries ih => exact ih

theorem isOk_parseFilterConditionValues (metadata : FilterConditionMetadata)
    (h : metadata.unresolvedExpressions = false) :
    (∃ values, parseFilterConditionValues lib condition options metadata = .ok values) ↔
      Converts lib options condition := by
  unfold parseFilterConditionValues Converts isValid
  simp only [h, Bool.false_and, Bool.or_false]
  -- one case for each way in which the values can be converted or not
  cases parseSingleFilterValue lib condition.leftValue condition.operator.type
      (options.typeValidation = .strict) options.version <;>
    cases parseSingleFilterValue lib condition.rightValue
      (condition.operator.rightType.getD condition.operator.type)
      (options.typeValidation = .strict) options.version <;>
    cases condition.operator.singleValue
  all_goals simp
  all_goals split_ifs <;> simp

/-- A filter error comes from the conversion only. -/
theorem throws_iff (index itemIndex : ℕ) :
    (∃ error, executeFilterCondition lib regexTest condition options
      { index := index, itemIndex := itemIndex } = .error (.filterError error)) ↔
        ¬ Converts lib options condition := by
  let metadata : FilterConditionMetadata := { index := index, itemIndex := itemIndex }
  rw [← isOk_parseFilterConditionValues metadata rfl]
  cases hvalues : parseFilterConditionValues lib condition options metadata with
  | error error =>
    refine ⟨fun _ => ?_, fun _ => ⟨error, ?_⟩⟩
    · rintro ⟨values, hok⟩
      cases hok
    · exact execute_of_error condition.operator.operation hvalues
  | ok values =>
    obtain ⟨left, right⟩ := values
    refine ⟨?_, fun hnot => absurd ⟨_, rfl⟩ hnot⟩
    rintro ⟨error, herror⟩ -
    have hexecute := herror.symm.trans (execute_of_ok condition.operator.operation hvalues)
    split at hexecute
    · cases hexecute
    · generalize (executeByType lib regexTest _ _).getD _ = result at hexecute
      cases result <;> cases hexecute

end Agreement

/-- The validation agrees with the evaluation exactly where all values can be converted. -/
theorem agrees_iff (regexTest : RegexTest) (name : String) (value : FilterValue) :
    Agrees lib regexTest name value ↔
      ∀ condition ∈ value.conditions, Converts lib value.options condition := by
  unfold Agrees
  simp only [validateFilterParameter_eq, Except.ok.injEq, exists_eq_left']
  constructor
  · intro h condition hmem
    obtain ⟨index, hindex⟩ := List.mem_iff_getElem?.mp hmem
    by_contra hnot
    obtain ⟨message, messages, hsome⟩ :=
      (h index condition hindex 0).mpr ((throws_iff index 0).mpr hnot)
    cases hsome
  · intro h index condition hindex itemIndex
    have hconverts := h condition (List.mem_of_getElem? hindex)
    constructor
    · rintro ⟨message, messages, hsome⟩
      cases hsome
    · intro hthrows
      exact absurd hconverts ((throws_iff index itemIndex).mp hthrows)

/-- A text is compared as a number. The evaluation fails, and there is no issue. -/
theorem not_agrees : ¬ ∀ (lib : Conversions) (regexTest : RegexTest) (name : String)
    (value : FilterValue), (∀ condition ∈ value.conditions,
      condition.leftValue.isExpression = false ∧ condition.rightValue.isExpression = false) →
    Agrees lib regexTest name value := by
  intro h
  let condition : FilterConditionValue :=
    ⟨.string (js ['a']), { type := .number, operation := .equals }, .number (.finite 1)⟩
  obtain ⟨issues, hissues, hagrees⟩ := h noConversions (fun _ _ _ => .ok true) "conditions"
    ⟨{ caseSensitive := true, typeValidation := .loose }, [condition]⟩
    (List.forall_mem_singleton.mpr ⟨by decide, rfl⟩)
  have hthrows : ¬ Converts noConversions ⟨true, .loose, 1⟩ condition :=
    fun hconverts => absurd hconverts.1 (by decide)
  obtain ⟨message, messages, hsome⟩ :=
    (hagrees 0 condition rfl 0).mpr ((throws_iff 0 0).mpr hthrows)
  obtain rfl := Except.ok.inj ((validateFilterParameter_eq _ _).symm.trans hissues)
  cases hsome

end N8n.Filters
