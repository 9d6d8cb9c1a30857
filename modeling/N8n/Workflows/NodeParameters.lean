import Mathlib.Data.Fin.VecNotation
import Mathlib.Data.Rat.Defs
import Mathlib.Logic.Embedding.Basic
import N8n.Common.JsString

/-!
# Parameters of a node

The parameters of a node are a JSON value. Arrays are families over an initial segment of ℕ, and
objects are families over distinct keys, so that a value never has one key twice.

## Main definitions

* `ParameterValue`: the parameters of a node and the values inside them
* `stringContainsParts`, `parametersAreSuperset`: whether a later value keeps all of an earlier one
* `Extends`: the later value is the earlier one with some strings grown
* `TurnsToArray`: an object of the earlier value stands where the later one has an array

## Main results

* `stringContainsParts_iff`: the scan over the two strings decides the order of subsequences
-/

namespace N8n.Workflows

inductive ParameterValue
  | null
  | boolean (b : Bool)
  | number (n : ℚ)
  | string (s : JsString)
  | array {n : ℕ} (items : Fin n → ParameterValue)
  | object {n : ℕ} (key : Fin n ↪ JsString) (value : Fin n → ParameterValue)

namespace ParameterValue

def indexName (i : ℕ) : JsString := js (Nat.toDigits 10 i)

/-- `Object.keys` of an object or an array, in the order in which they are stored. -/
def keys : ParameterValue → List JsString
  | @array n _ => (List.finRange n).map fun i : Fin n => indexName i
  | object key _ => (List.finRange _).map key
  | _ => []

/-- The value of an own property. An array has its indices and `length`. -/
def getOwn? (name : JsString) : ParameterValue → Option ParameterValue
  | @array n items =>
    if name = js "length".toList then some (number n)
    else ((List.finRange n).find? fun i : Fin n => indexName i = name).map items
  | object key value => ((List.finRange _).find? fun i => key i = name).map value
  | _ => none

/-- `typeof value === 'object'` for a value other than `null`. -/
def isObject : ParameterValue → Bool
  | array _ => true
  | object _ _ => true
  | _ => false

end ParameterValue

open ParameterValue

/-! ## Strings -/

section Strings

variable {s substr : JsString} {c : CodeUnit} {i marker diffSize : ℕ}

/-- The position in `substr` after one more unit of `s`. -/
def advance (substr : JsString) (marker : ℕ) (c : CodeUnit) : ℕ :=
  if substr[marker]? = some c then marker + 1 else marker

/-- The loop of `stringContainsParts` over the units of `s` from index `i` on. -/
def containsPartsLoop (substr : JsString) (diffSize : ℕ) : JsString → ℕ → ℕ → Bool
  | [], _, marker => decide (substr.length ≤ marker)
  | c :: s, i, marker =>
    let marker := advance substr marker c
    if diffSize < i - marker then false else containsPartsLoop substr diffSize s (i + 1) marker

def stringContainsParts (s substr : JsString) : Bool :=
  if s.length < substr.length then false
  else containsPartsLoop substr (s.length - substr.length) s 0 0

theorem advance_le (h : marker ≤ substr.length) : advance substr marker c ≤ substr.length := by
  rw [advance]
  split
  · rename_i hc
    exact (List.getElem?_eq_some_iff.mp hc).1
  · exact h

/-- Taking the next unit wherever it matches loses nothing. -/
theorem drop_advance_sublist (h : marker ≤ substr.length) :
    (substr.drop (advance substr marker c)).Sublist s ↔ (substr.drop marker).Sublist (c :: s) := by
  rcases h.eq_or_lt with rfl | hlt
  · simp [advance]
  rw [List.drop_eq_getElem_cons hlt, advance, List.getElem?_eq_getElem hlt]
  by_cases hc : substr[marker] = c
  · simp [hc]
  · simp only [Option.some.injEq, hc, if_false]
    rw [List.drop_eq_getElem_cons hlt]
    constructor
    · exact List.Sublist.cons c
    · rintro (h | ⟨_, h⟩)
      · exact h
      · exact absurd rfl hc

/-- The early exit is taken only where too few units are left. -/
theorem containsPartsLoop_iff (hm : marker ≤ substr.length)
    (hsize : i + s.length = diffSize + substr.length) :
    containsPartsLoop substr diffSize s i marker = true ↔ (substr.drop marker).Sublist s := by
  induction s generalizing i marker with
  | nil => simp [containsPartsLoop]
  | cons c s ih =>
    simp only [List.length_cons] at hsize
    rw [containsPartsLoop, ← drop_advance_sublist hm]
    have hm' := advance_le (c := c) hm
    split
    · rename_i hexit
      -- the units that are left of `substr` outnumber those of `s`
      refine iff_of_false (by simp) fun hsub => ?_
      have hlen := hsub.length_le
      rw [List.length_drop] at hlen
      omega
    · exact ih hm' (by omega)

theorem stringContainsParts_iff : stringContainsParts s substr = true ↔ substr.Sublist s := by
  rw [stringContainsParts]
  split
  · rename_i hlt
    exact iff_of_false (by simp) fun hsub => absurd hsub.length_le (by omega)
  · rename_i hle
    exact containsPartsLoop_iff (Nat.zero_le _) (by omega)

end Strings

/-! ## Values -/

section Values

variable {prev next : ParameterValue}

def parametersAreSuperset : ParameterValue → ParameterValue → Bool
  | string prev, string next => stringContainsParts next prev
  | null, null => true
  | boolean prev, boolean next => prev = next
  | number prev, number next => prev = next
  | @array n prev, @array m next =>
    if h : n = m then (List.finRange n).all fun i => parametersAreSuperset (prev i) (next (i.cast h))
    else false
  | @object n key value, next =>
    next.isObject && n = next.keys.length &&
      ((List.finRange n).all fun i => (next.getOwn? (key i)).isSome) &&
      (List.finRange n).all fun i =>
        (next.getOwn? (key i)).elim false fun other => parametersAreSuperset (value i) other
  | _, _ => false

/-- lodash's `isEqual` on JSON values: the order of the keys does not matter. -/
def isEqual : ParameterValue → ParameterValue → Bool
  | string prev, string next => prev = next
  | null, null => true
  | boolean prev, boolean next => prev = next
  | number prev, number next => prev = next
  | @array n prev, @array m next =>
    if h : n = m then (List.finRange n).all fun i => isEqual (prev i) (next (i.cast h)) else false
  | @object n key value, @object m key' value' =>
    n = m && (List.finRange n).all fun i =>
      ((object key' value').getOwn? (key i)).elim false fun other => isEqual (value i) other
  | _, _ => false

attribute [grind =] parametersAreSuperset isEqual

/-- `next` is `prev` with some strings replaced by strings that contain them as subsequences. -/
inductive Extends : ParameterValue → ParameterValue → Prop
  | null : Extends null null
  | boolean (b : Bool) : Extends (boolean b) (boolean b)
  | number (n : ℚ) : Extends (number n) (number n)
  | string {s t : JsString} (h : s.Sublist t) : Extends (string s) (string t)
  | array {n : ℕ} {items items' : Fin n → ParameterValue} (h : ∀ i, Extends (items i) (items' i)) :
    Extends (array items) (array items')
  | object {n : ℕ} {key key' : Fin n ↪ JsString} {value value' : Fin n → ParameterValue}
    (hkey : ∀ i, ∃ j, key' j = key i) (h : ∀ i j, key' j = key i → Extends (value i) (value' j)) :
    Extends (object key value) (object key' value')

/-- At some place `prev` has an object and `next` an array. -/
inductive TurnsToArray : ParameterValue → ParameterValue → Prop
  | here {n m : ℕ} (key : Fin n ↪ JsString) (value : Fin n → ParameterValue)
    (items : Fin m → ParameterValue) : TurnsToArray (object key value) (array items)
  | item {n : ℕ} {items items' : Fin n → ParameterValue} (i : Fin n)
    (h : TurnsToArray (items i) (items' i)) : TurnsToArray (array items) (array items')
  | property {n m : ℕ} {key : Fin n ↪ JsString} {key' : Fin m ↪ JsString}
    {value : Fin n → ParameterValue} {value' : Fin m → ParameterValue} {i : Fin n} {j : Fin m}
    (hkey : key' j = key i) (h : TurnsToArray (value i) (value' j)) :
    TurnsToArray (object key value) (object key' value')

/-- The own property of an object under the key at an index. -/
theorem getOwn?_object {n : ℕ} {key : Fin n ↪ JsString} {value : Fin n → ParameterValue}
    {name : JsString} {other : ParameterValue} : (object key value).getOwn? name = some other ↔
      ∃ j, key j = name ∧ value j = other := by
  simp only [getOwn?, Option.map_eq_some_iff, List.find?_eq_some_iff_append]
  constructor
  · rintro ⟨j, ⟨hj, -⟩, rfl⟩
    exact ⟨j, by simpa using hj, rfl⟩
  · rintro ⟨j, rfl, rfl⟩
    obtain ⟨before, after, hsplit⟩ := List.append_of_mem (List.mem_finRange j)
    refine ⟨j, ⟨by simp, before, after, hsplit, fun i hi => ?_⟩, rfl⟩
    -- the keys are distinct, so no earlier index has this one
    have hnd := List.nodup_finRange n
    rw [hsplit, List.nodup_append] at hnd
    have hne : i ≠ j := hnd.2.2 i hi j (by simp)
    simpa using fun h => hne (key.injective h)

/-- What agreeing on every key means, for two objects of one size. -/
theorem object_all_iff {n : ℕ} {key key' : Fin n ↪ JsString} {value value' : Fin n → ParameterValue}
    {p : ParameterValue → ParameterValue → Bool} :
    ((List.finRange n).all fun i =>
      ((object key' value').getOwn? (key i)).elim false fun other => p (value i) other) = true ↔
      (∀ i, ∃ j, key' j = key i) ∧ ∀ i j, key' j = key i → p (value i) (value' j) = true := by
  simp only [List.all_eq_true, List.mem_finRange, true_implies]
  constructor
  · intro h
    refine ⟨fun i => ?_, fun i j hj => ?_⟩
    · cases hget : (object key' value').getOwn? (key i) with
      | none => simpa [hget] using h i
      | some other =>
        obtain ⟨j, hj, -⟩ := getOwn?_object.mp hget
        exact ⟨j, hj⟩
    · simpa [getOwn?_object.mpr ⟨j, hj, rfl⟩] using h i
  · rintro ⟨hkey, hp⟩ i
    obtain ⟨j, hj⟩ := hkey i
    simpa [getOwn?_object.mpr ⟨j, hj, rfl⟩] using hp i j hj

theorem keys_object {n : ℕ} {key : Fin n ↪ JsString} {value : Fin n → ParameterValue} :
    (object key value).keys.length = n := by
  simp [keys]

theorem not_turnsToArray (h : Extends prev next) : ¬ TurnsToArray prev next := by
  induction h with
  | null => rintro ⟨⟩
  | boolean => rintro ⟨⟩
  | number => rintro ⟨⟩
  | string => rintro ⟨⟩
  | array _ ih =>
    rintro (_ | ⟨i, h⟩)
    exact ih i h
  | object _ _ ih =>
    rintro (_ | _ | ⟨hkey, h⟩)
    exact ih _ _ hkey h

theorem extends_of_parametersAreSuperset (h : parametersAreSuperset prev next = true)
    (hturns : ¬ TurnsToArray prev next) : Extends prev next := by
  induction prev generalizing next with
  | null =>
    cases next with
    | null => exact .null
    | _ => cases h
  | boolean b =>
    cases next with
    | boolean b' =>
      obtain rfl : b = b' := by simpa [parametersAreSuperset] using h
      exact .boolean b
    | _ => cases h
  | number n =>
    cases next with
    | number n' =>
      obtain rfl : n = n' := by simpa [parametersAreSuperset] using h
      exact .number n
    | _ => cases h
  | string s =>
    cases next with
    | string t => exact .string (stringContainsParts_iff.mp h)
    | _ => cases h
  | @array n items ih =>
    cases next with
    | @array m items' =>
      rw [parametersAreSuperset] at h
      split at h
      · rename_i hn
        subst hn
        simp only [List.all_eq_true, List.mem_finRange, true_implies] at h
        exact .array fun i => ih i (h i) fun ht => hturns (.item i ht)
      · cases h
    | _ => cases h
  | @object n key value ih =>
    cases next with
    | @object m key' value' =>
      simp only [parametersAreSuperset, keys_object, Bool.and_eq_true, decide_eq_true_eq] at h
      obtain ⟨⟨⟨-, rfl⟩, -⟩, h⟩ := h
      obtain ⟨hkey, hvalue⟩ := object_all_iff.mp h
      exact .object hkey fun i j hj => ih i (hvalue i j hj) fun ht => hturns (.property hj ht)
    | array items => exact absurd (.here key value items) hturns
    | _ => simp [parametersAreSuperset, isObject] at h

theorem isEqual_refl (value : ParameterValue) : isEqual value value = true := by
  induction value with
  | null => rfl
  | boolean b => simp [isEqual]
  | number n => simp [isEqual]
  | string s => simp [isEqual]
  | array items ih => simpa [isEqual] using ih
  | object key value ih =>
    rw [isEqual, Bool.and_eq_true]
    refine ⟨by simp, object_all_iff.mpr ⟨fun i => ⟨i, rfl⟩, fun i j hj => ?_⟩⟩
    rw [key.injective hj]
    exact ih i

/-- Equal values differ in the order of their keys at most. -/
theorem extends_of_isEqual (h : isEqual prev next = true) : Extends prev next := by
  induction prev generalizing next with
  | null =>
    cases next with
    | null => exact .null
    | _ => cases h
  | boolean b =>
    cases next with
    | boolean b' =>
      obtain rfl : b = b' := by simpa [isEqual] using h
      exact .boolean b
    | _ => cases h
  | number n =>
    cases next with
    | number n' =>
      obtain rfl : n = n' := by simpa [isEqual] using h
      exact .number n
    | _ => cases h
  | string s =>
    cases next with
    | string t =>
      obtain rfl : s = t := by simpa [isEqual] using h
      exact .string (List.Sublist.refl s)
    | _ => cases h
  | @array n items ih =>
    cases next with
    | @array m items' =>
      rw [isEqual] at h
      split at h
      · rename_i hn
        subst hn
        simp only [List.all_eq_true, List.mem_finRange, true_implies] at h
        exact .array fun i => ih i (h i)
      · cases h
    | _ => cases h
  | @object n key value ih =>
    cases next with
    | @object m key' value' =>
      rw [isEqual, Bool.and_eq_true, decide_eq_true_eq] at h
      obtain ⟨rfl, h⟩ := h
      obtain ⟨hkey, hvalue⟩ := object_all_iff.mp h
      exact .object hkey fun i j hj => ih i (hvalue i j hj)
    | _ => cases h

end Values

end N8n.Workflows
