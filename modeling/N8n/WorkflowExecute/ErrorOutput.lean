import Mathlib.Algebra.Order.BigOperators.Group.List
import Mathlib.Algebra.Order.Group.Nat
import N8n.Foundations.Distribution
import N8n.WorkflowExecute.PairedItems
import N8n.Workflows.Connections

/-!
# The error output

A node may have one more output, for the items that carry an error. Once the node has run, the
engine takes the items out of the arrays of the other outputs one by one. It builds new arrays for
these outputs, and one with the error items, which it extends with the fields of the items they are
paired with.

## Main definitions

* `handleNodeErrorOutput`: the outputs after that
* `Partitions`: every item is on its output, or on the error output if it carries an error
* `Routable`: the node put nothing on the error output and no array on two outputs, and the items
  with errors are paired with items that are found

## Main results

* `routeOutputs_cases`: what the engine builds, and when it fails
* `partitions_iff_routable`: the items are partitioned exactly where the output is routable
-/

namespace N8n.WorkflowExecute

open Distribution

/-! ## Items with errors -/

def isTruthy : JsonValue → Bool
  | .null => false
  | .bool b => b
  | .number n => n ≠ 0
  | .string s => s ≠ ""
  | .array _ => true
  | .object _ => true

namespace OutputItem

variable (item : OutputItem)

/-- The error of an item: its own one, or that of its data, if they hold nothing else. -/
def errorData : Option JsonValue :=
  match item.error.filter isTruthy with
  | some error => some error
  | none => (item.json.get? "error").filter fun error =>
    isTruthy error && item.json.keys.all (· ∈ ["error", "message", "details"])

def carriesError : Bool := item.errorData.isSome

/-- The paired item that is looked up: the only one, or the first, unless it is just an index. -/
def pairedItemData : Option PairedItemRef :=
  match item.pairedItem with
  | none => none
  | some (.one (.number _)) => none
  | some (.one (.data pairedItem)) => some (.data pairedItem)
  | some (.many pairedItems) => pairedItems.head?

end OutputItem

/-! ## Routing the items -/

section Route

variable (context : RunContext) (fuel : ℕ) (source : Option (List (Option ISourceData)))

/-- The error item for an item: it gets the fields of the item it is paired with. -/
def errorItem (arrays : Arrays) (item : OutputItem) : Except PairedItemError OutputItem :=
  match source, item.pairedItemData with
  | some source, some pairedItemData =>
    match at? source (pairedItemData.normalize.input.getD 0) with
    | none => .error .typeError
    | some sourceData => do
      let constPairedItem ←
        getPairedItem context arrays fuel sourceData.previousNode (some sourceData) pairedItemData
      .ok { item with json := spread (spread .empty constPairedItem.item.json) item.json }
  | _, _ => .ok item

/-- Shift the items out of an array, in which `items` are left: the successful items and the error
items. -/
def shiftItems (array : ℕ) : List ItemObject → Arrays →
    Except PairedItemError (Arrays × List OutputItem × List OutputItem)
  | [], arrays => .ok (arrays, [], [])
  | object :: items, arrays => do
    let arrays := Function.update arrays array items
    if object.item.carriesError then
      let error ← errorItem context fuel source arrays object.item
      let (arrays, successItems, errorItems) ← shiftItems array items arrays
      .ok (arrays, successItems, error :: errorItems)
    else
      let (arrays, successItems, errorItems) ← shiftItems array items arrays
      .ok (arrays, object.item :: successItems, errorItems)

/-- Go through the outputs in turn: the successful items of each, and all error items. -/
def routeOutputs : List (Option ℕ) → Arrays →
    Except PairedItemError (Arrays × List (List OutputItem) × List OutputItem)
  | [], arrays => .ok (arrays, [], [])
  | none :: outputs, arrays => do
    let (arrays, successItems, errorItems) ← routeOutputs outputs arrays
    .ok (arrays, [] :: successItems, errorItems)
  | some array :: outputs, arrays => do
    let (arrays, success, errors) ← shiftItems context fuel source array (arrays array) arrays
    let (arrays, successItems, errorItems) ← routeOutputs outputs arrays
    .ok (arrays, success :: successItems, errors ++ errorItems)

end Route

/-- The types of the main outputs of a node with an error output, given those of its node type. The
error output comes last. -/
def mainOutputTypes (outputs : List String) : List String :=
  (outputs ++ ["main"]).filter (· = "main")

def errorOutput (outputs : List String) : ℕ := (mainOutputTypes outputs).length - 1

def firstOutputs (nodeSuccessData : List (Option ℕ)) (last : ℕ) : List (Option ℕ) :=
  (List.range last).map (at? nodeSuccessData)

/-- The outputs of a node after its items with errors have been moved to the error output. The node
returned arrays; `none` is an output without one. -/
def handleNodeErrorOutput (context : RunContext) (fuel : ℕ)
    (source : Option (List (Option ISourceData))) (outputs : List String)
    (nodeSuccessData : List (Option ℕ)) (arrays : Arrays) :
    Except PairedItemError (InputData OutputItem) := do
  let last := errorOutput outputs
  let (arrays, successItems, errorItems) ←
    routeOutputs context fuel source (firstOutputs nodeSuccessData last) arrays
  .ok ((successItems ++ [errorItems]).map some ++
    (nodeSuccessData.drop (last + 1)).map (·.map fun array => (arrays array).map ItemObject.item))

/-! ## Partitions -/

def itemsAt (nodeSuccessData : List (Option ℕ)) (arrays : Arrays) (i : ℕ) : List OutputItem :=
  (arrays.read (at? nodeSuccessData i)).map ItemObject.item

def outputFor (last i : ℕ) (item : OutputItem) : ℕ := if item.carriesError then last else i

/-- What an item is on its output: itself, or with an error the item with further fields. -/
structure Becomes (item item' : OutputItem) : Prop where
  success : item.carriesError = false → item' = item
  error : item'.error = item.error
  pairedItem : item'.pairedItem = item.pairedItem
  json : ∀ key value, item.json.get? key = some value → item'.json.get? key = some value

/-- **The items are partitioned**: those that carry an error are on the error output, the others on
the output they were on, each exactly once and in the order of their output. -/
def Partitions (last : ℕ) (nodeSuccessData : List (Option ℕ)) (arrays : Arrays)
    (result : Except PairedItemError (InputData OutputItem)) : Prop :=
  ∃ after, result = .ok after ∧
    Distributes (last + 1) (itemsAt nodeSuccessData arrays) (outputFor last) Becomes
      fun i => (at? after i).getD []

/-! ## When the items are partitioned -/

section Routable

variable (context : RunContext) (fuel : ℕ) (source : Option (List (Option ISourceData)))

def Resolves (arrays : Arrays) (item : OutputItem) : Prop :=
  ∀ sources pairedItemData, source = some sources → item.pairedItemData = some pairedItemData →
    ∃ sourceData found, at? sources (pairedItemData.normalize.input.getD 0) = some sourceData ∧
      getPairedItem context arrays fuel sourceData.previousNode (some sourceData) pairedItemData =
        .ok found

def emptied (outputs : List (Option ℕ)) (arrays : Arrays) : Arrays := fun array =>
  if some array ∈ outputs then [] else arrays array

/-- No array with items is on two of the outputs before the error output. -/
def Distinct (last : ℕ) (nodeSuccessData : List (Option ℕ)) (arrays : Arrays) : Prop :=
  ∀ i k array, i < k → k < last → at? nodeSuccessData i = some array →
    at? nodeSuccessData k = some array → arrays array = []

/-- The node put no items on the error output and no array with items on two outputs, and where an
item with an error is taken out, the item it is paired with is found. -/
structure Routable (last : ℕ) (nodeSuccessData : List (Option ℕ)) (arrays : Arrays) : Prop where
  unfilled : itemsAt nodeSuccessData arrays last = []
  distinct : Distinct last nodeSuccessData arrays
  resolves : ∀ k array j object, k < last → at? nodeSuccessData k = some array →
    (arrays array)[j]? = some object → object.item.carriesError = true →
    Resolves context fuel source
      (Function.update (emptied (firstOutputs nodeSuccessData k) arrays) array
        ((arrays array).drop (j + 1))) object.item

variable {context fuel source} {arrays : Arrays} {array : ℕ} {item item' : OutputItem}
  {outputs : List (Option ℕ)} {items : List ItemObject}

/-! ## One item -/

theorem get?_foldl_set {other : IDataObject} {key : String} {value : JsonValue}
    (h : other.get? key = some value) (keys : List String) (object : IDataObject)
    (hkey : key ∈ keys ∨ object.get? key = some value) :
    (keys.foldl (fun object key =>
      match other.get? key with
      | none => object
      | some value => object.set key value) object).get? key = some value := by
  induction keys generalizing object with
  | nil => exact hkey.resolve_left List.not_mem_nil
  | cons k keys ih =>
    apply ih
    dsimp only
    by_cases hk : k = key
    · subst hk
      rw [h]
      exact .inr OrderedMap.get?_set_self
    · refine hkey.imp (fun hmem => (List.mem_cons.mp hmem).resolve_left (Ne.symm hk)) fun hold => ?_
      cases other.get? k with
      | none => exact hold
      | some _ => exact (OrderedMap.get?_set_of_ne (Ne.symm hk)).trans hold

/-- The properties of the second object come out on top. -/
theorem get?_spread {object other : IDataObject} {key : String} {value : JsonValue}
    (h : other.get? key = some value) : (spread object other).get? key = some value := by
  apply get?_foldl_set h
  exact .inl (Workflows.mem_objectKeys.mpr (OrderedMap.mem_keys.mpr ⟨value, h⟩))

theorem Becomes.refl (item : OutputItem) : Becomes item item :=
  ⟨fun _ => rfl, rfl, rfl, fun _ _ h => h⟩

/-- An item with an error becomes an error item where what it is paired with is found. -/
theorem errorItem_cases (herror : item.carriesError = true) :
    (Resolves context fuel source arrays item ∧
      ∃ item', errorItem context fuel source arrays item = .ok item' ∧ Becomes item item') ∨
    (¬ Resolves context fuel source arrays item ∧
      ∃ e, errorItem context fuel source arrays item = .error e) := by
  unfold errorItem Resolves
  cases source with
  | none =>
    refine .inl ⟨?_, item, rfl, Becomes.refl item⟩
    intro sources pairedItemData h
    cases h
  | some sources =>
    cases hpaired : item.pairedItemData with
    | none =>
      refine .inl ⟨?_, item, rfl, Becomes.refl item⟩
      intro sources pairedItemData _ h
      cases h
    | some pairedItemData =>
      dsimp only
      cases hsource : at? sources (pairedItemData.normalize.input.getD 0) with
      | none =>
        refine .inr ⟨?_, _, rfl⟩
        intro h
        obtain ⟨sourceData, _, hsome, -⟩ := h sources pairedItemData rfl rfl
        rw [hsource] at hsome
        cases hsome
      | some sourceData =>
        dsimp only
        cases hfound : getPairedItem context arrays fuel sourceData.previousNode (some sourceData)
            pairedItemData with
        | error e =>
          refine .inr ⟨?_, e, rfl⟩
          intro h
          obtain ⟨sourceData', _, hsome, hok⟩ := h sources pairedItemData rfl rfl
          rw [hsource] at hsome
          cases hsome
          rw [hfound] at hok
          cases hok
        | ok found =>
          refine .inl ⟨?_, _, rfl, ?_⟩
          · rintro _ _ ⟨⟩ ⟨⟩
            exact ⟨sourceData, found, hsource, hfound⟩
          · refine ⟨?_, rfl, rfl, fun key value h => get?_spread h⟩
            intro hsuccess
            rw [herror] at hsuccess
            cases hsuccess

/-! ## One array -/

/-- Where an item with an error is taken out of the array, its paired item is found. -/
def ArrayResolves (context : RunContext) (fuel : ℕ) (source : Option (List (Option ISourceData)))
    (array : ℕ) (items : List ItemObject) (arrays : Arrays) : Prop :=
  ∀ j object, items[j]? = some object → object.item.carriesError = true →
    Resolves context fuel source (Function.update arrays array (items.drop (j + 1))) object.item

theorem arrayResolves_cons {object : ItemObject} :
    ArrayResolves context fuel source array (object :: items) arrays ↔
      (object.item.carriesError = true →
        Resolves context fuel source (Function.update arrays array items) object.item) ∧
      ArrayResolves context fuel source array items (Function.update arrays array items) := by
  unfold ArrayResolves
  constructor
  · intro h
    refine ⟨h 0 object rfl, ?_⟩
    intro j other hother herror
    rw [Function.update_idem]
    exact h (j + 1) other hother herror
  · rintro ⟨hfirst, hrest⟩ j other hother herror
    cases j with
    | zero =>
      cases hother
      exact hfirst herror
    | succ j =>
      have := hrest j other hother herror
      rwa [Function.update_idem] at this

/-- **What is made of the items of an array**, which is empty then. -/
theorem shiftItems_cases (harray : arrays array = items) :
    (ArrayResolves context fuel source array items arrays ∧ ∃ errors,
      shiftItems context fuel source array items arrays = .ok (Function.update arrays array [],
        (items.map ItemObject.item).filter (fun item => !item.carriesError), errors) ∧
      List.Forall₂ Becomes ((items.map ItemObject.item).filter OutputItem.carriesError) errors) ∨
    (¬ ArrayResolves context fuel source array items arrays ∧ ∃ e,
      shiftItems context fuel source array items arrays = .error e) := by
  induction items generalizing arrays with
  | nil =>
    refine .inl ⟨?_, [], ?_, .nil⟩
    · intro j object hobject
      cases hobject
    · have hsame : Function.update arrays array [] = arrays := by
        rw [← harray, Function.update_eq_self]
      rw [hsame]
      rfl
  | cons object items ih =>
    rw [arrayResolves_cons]
    have hrest := @ih (Function.update arrays array items) (Function.update_self _ _ _)
    rw [Function.update_idem] at hrest
    simp only [shiftItems, List.map_cons]
    cases herror : object.item.carriesError with
    | false =>
      rw [List.filter_cons_of_pos (by simp [herror]), List.filter_cons_of_neg (by simp [herror])]
      rcases hrest with ⟨hresolves, errors, hok, hforall⟩ | ⟨hnot, e, he⟩
      · refine .inl ⟨⟨fun h => absurd h Bool.false_ne_true, hresolves⟩, errors, ?_, hforall⟩
        rw [hok]
        rfl
      · refine .inr ⟨fun h => hnot h.2, e, ?_⟩
        rw [he]
        rfl
    | true =>
      rw [List.filter_cons_of_neg (by simp [herror]), List.filter_cons_of_pos (by simp [herror])]
      rcases @errorItem_cases context fuel source (Function.update arrays array items) object.item
        herror with ⟨hresolve, item', hitem', hbecomes⟩ | ⟨hnot, e, he⟩
      · rcases hrest with ⟨hresolves, errors, hok, hforall⟩ | ⟨hnot, e, he⟩
        · refine .inl ⟨⟨fun _ => hresolve, hresolves⟩, item' :: errors, ?_, .cons hbecomes hforall⟩
          rw [hitem', hok]
          rfl
        · refine .inr ⟨fun h => hnot h.2, e, ?_⟩
          rw [hitem', he]
          rfl
      · refine .inr ⟨fun h => hnot (h.1 rfl), e, ?_⟩
        rw [he]
        rfl

/-! ## All outputs -/

@[simp] theorem emptied_nil : emptied [] arrays = arrays := by
  ext array : 1
  exact if_neg List.not_mem_nil

@[simp] theorem emptied_none : emptied (none :: outputs) arrays = emptied outputs arrays := by
  ext array : 1
  simp [emptied]

@[simp] theorem emptied_some :
    emptied (some array :: outputs) arrays =
      emptied outputs (Function.update arrays array []) := by
  ext other : 1
  unfold emptied
  by_cases h : other = array
  · subst h
    simp
  · simp [h]

theorem read_emptied (output : Option ℕ) :
    (emptied outputs arrays).read output = if output ∈ outputs then [] else arrays.read output := by
  cases output with
  | none => simp [Arrays.read]
  | some array => rfl

/-- What the outputs hold when their turn comes. -/
def contents : List (Option ℕ) → Arrays → List (List OutputItem)
  | [], _ => []
  | output :: outputs, arrays =>
    (arrays.read output).map ItemObject.item :: contents outputs (emptied [output] arrays)

variable (context fuel source) in
/-- Where an item with an error is taken out of an output, its paired item is found. -/
def OutputsResolve : List (Option ℕ) → Arrays → Prop
  | [], _ => True
  | output :: outputs, arrays =>
    (∀ array, output = some array →
      ArrayResolves context fuel source array (arrays array) arrays) ∧
      OutputsResolve outputs (emptied [output] arrays)

/-- **What is made of the outputs.** -/
theorem routeOutputs_cases :
    (OutputsResolve context fuel source outputs arrays ∧ ∃ errors,
      routeOutputs context fuel source outputs arrays = .ok (emptied outputs arrays,
        (contents outputs arrays).map (List.filter fun item => !item.carriesError), errors) ∧
      List.Forall₂ Becomes ((contents outputs arrays).flatMap (List.filter OutputItem.carriesError))
        errors) ∨
    (¬ OutputsResolve context fuel source outputs arrays ∧ ∃ e,
      routeOutputs context fuel source outputs arrays = .error e) := by
  induction outputs generalizing arrays with
  | nil => exact .inl ⟨True.intro, [], by rw [emptied_nil]; rfl, .nil⟩
  | cons output outputs ih =>
    simp only [OutputsResolve, contents, List.map_cons, List.flatMap_cons]
    cases output with
    | none =>
      rw [emptied_none, emptied_nil, emptied_none]
      rcases @ih arrays with ⟨hresolves, errors, hok, hforall⟩ | ⟨hnot, e, he⟩
      · refine .inl ⟨⟨?_, hresolves⟩, errors, ?_, hforall⟩
        · intro array h
          cases h
        · simp only [routeOutputs, hok]
          rfl
      · refine .inr ⟨fun h => hnot h.2, e, ?_⟩
        simp only [routeOutputs, he]
        rfl
    | some array =>
      rw [emptied_some, emptied_nil, emptied_some]
      have hfirst := @shiftItems_cases context fuel source arrays array (arrays array) rfl
      rcases hfirst with ⟨hresolve, errors, hok, hforall⟩ | ⟨hnot, e, he⟩
      · rcases @ih (Function.update arrays array []) with
          ⟨hresolves, errors', hok', hforall'⟩ | ⟨hnot, e, he⟩
        · refine .inl ⟨⟨?_, hresolves⟩, errors ++ errors', ?_, List.rel_append hforall hforall'⟩
          · rintro _ ⟨⟩
            exact hresolve
          · simp only [routeOutputs, hok]
            show (do
              let (arrays, successItems, errorItems) ← routeOutputs context fuel source outputs
                (Function.update arrays array [])
              Except.ok (arrays, _ :: successItems, errors ++ errorItems)) = _
            rw [hok']
            rfl
        · refine .inr ⟨fun h => hnot h.2, e, ?_⟩
          simp only [routeOutputs, hok]
          show (do
            let (arrays, successItems, errorItems) ← routeOutputs context fuel source outputs
              (Function.update arrays array [])
            Except.ok (arrays, _ :: successItems, errors ++ errorItems)) = _
          rw [he]
          rfl
      · refine .inr ⟨fun h => hnot (h.1 array rfl), e, ?_⟩
        simp only [routeOutputs, he]
        rfl

@[simp] theorem length_contents : (contents outputs arrays).length = outputs.length := by
  induction outputs generalizing arrays with
  | nil => rfl
  | cons output outputs ih => rw [contents, List.length_cons, List.length_cons, ih]

theorem contents_getElem? {k : ℕ} {output : Option ℕ}
    (h : outputs[k]? = some output) : (contents outputs arrays)[k]? =
      some (((emptied (outputs.take k) arrays).read output).map ItemObject.item) := by
  induction outputs generalizing arrays k with
  | nil => cases h
  | cons first outputs ih =>
    rw [contents]
    cases k with
    | zero =>
      cases h
      rw [List.take_zero, emptied_nil]
      rfl
    | succ k =>
      rw [List.getElem?_cons_succ, ih h, List.take_succ_cons]
      cases first <;> simp

theorem outputsResolve_iff :
    OutputsResolve context fuel source outputs arrays ↔
      ∀ k array, outputs[k]? = some (some array) → ArrayResolves context fuel source array
        (emptied (outputs.take k) arrays array) (emptied (outputs.take k) arrays) := by
  induction outputs generalizing arrays with
  | nil =>
    refine iff_of_true True.intro ?_
    intro k array h
    cases h
  | cons first outputs ih =>
    rw [OutputsResolve, ih]
    have hcons : ∀ k, emptied ((first :: outputs).take (k + 1)) arrays =
        emptied (outputs.take k) (emptied [first] arrays) := by
      intro k
      rw [List.take_succ_cons]
      cases first <;> simp
    constructor
    · rintro ⟨hfirst, hrest⟩ k array h
      cases k with
      | zero =>
        rw [List.take_zero, emptied_nil]
        exact hfirst array (Option.some.inj h)
      | succ k =>
        rw [hcons]
        exact hrest k array h
    · intro h
      refine ⟨?_, ?_⟩
      · rintro array rfl
        have := h 0 array rfl
        rwa [List.take_zero, emptied_nil] at this
      · intro k array hk
        have := h (k + 1) array hk
        rwa [hcons] at this

end Routable

/-! ## The outputs of a node -/

section Outputs

variable {context : RunContext} {fuel : ℕ} {source : Option (List (Option ISourceData))}
variable {outputs : List String} {nodeSuccessData : List (Option ℕ)} {arrays : Arrays}
variable {last i k : ℕ}

theorem take_firstOutputs (h : k ≤ last) :
    (firstOutputs nodeSuccessData last).take k = firstOutputs nodeSuccessData k := by
  unfold firstOutputs
  rw [← List.map_take, List.take_range, min_eq_left h]

theorem getElem?_firstOutputs (h : k < last) :
    (firstOutputs nodeSuccessData last)[k]? = some (at? nodeSuccessData k) := by
  unfold firstOutputs
  rw [List.getElem?_map, List.getElem?_range h]
  rfl

/-- What an output holds when its turn comes: its items, unless its array was taken before. -/
def itemsInTurn (nodeSuccessData : List (Option ℕ)) (arrays : Arrays) (k : ℕ) : List OutputItem :=
  itemsAt nodeSuccessData (emptied (firstOutputs nodeSuccessData k) arrays) k

theorem itemsInTurn_cases :
    itemsInTurn nodeSuccessData arrays k = itemsAt nodeSuccessData arrays k ∨
      itemsInTurn nodeSuccessData arrays k = [] := by
  unfold itemsInTurn itemsAt
  rw [read_emptied]
  split_ifs
  · exact .inr rfl
  · exact .inl rfl

theorem contents_firstOutputs : contents (firstOutputs nodeSuccessData last) arrays =
    (List.range last).map (itemsInTurn nodeSuccessData arrays) := by
  apply List.ext_getElem?
  intro k
  rcases lt_or_ge k last with hk | hk
  · rw [contents_getElem? (getElem?_firstOutputs hk), take_firstOutputs hk.le, List.getElem?_map,
      List.getElem?_range hk]
    rfl
  · rw [List.getElem?_eq_none (by simp [firstOutputs, hk]), List.getElem?_eq_none (by simp [hk])]

/-- **The outputs of a node** after its items with errors were moved, if the items they are paired
with are found. -/
theorem handleNodeErrorOutput_cases (hlast : errorOutput outputs = last) :
    (OutputsResolve context fuel source (firstOutputs nodeSuccessData last) arrays ∧
      ∃ after errors, handleNodeErrorOutput context fuel source outputs nodeSuccessData arrays =
          .ok after ∧
        List.Forall₂ Becomes ((List.range last).flatMap fun i =>
          (itemsInTurn nodeSuccessData arrays i).filter OutputItem.carriesError) errors ∧
        ∀ k, (at? after k).getD [] =
          if k < last then
            (itemsInTurn nodeSuccessData arrays k).filter fun item => !item.carriesError
          else if k = last then errors
          else itemsAt nodeSuccessData
            (emptied (firstOutputs nodeSuccessData last) arrays) k) ∨
    (¬ OutputsResolve context fuel source (firstOutputs nodeSuccessData last) arrays ∧
      ∃ e,
        handleNodeErrorOutput context fuel source outputs nodeSuccessData arrays = .error e) := by
  have hroute := @routeOutputs_cases context fuel source arrays (firstOutputs nodeSuccessData last)
  unfold handleNodeErrorOutput
  dsimp only
  rw [hlast]
  show _ ∧ (∃ after errors, (routeOutputs context fuel source (firstOutputs nodeSuccessData last)
    arrays).bind _ = .ok after ∧ _) ∨ _ ∧ ∃ e, (routeOutputs context fuel source
      (firstOutputs nodeSuccessData last) arrays).bind _ = .error e
  rcases hroute with ⟨hresolves, errors, hok, hforall⟩ | ⟨hnot, e, he⟩
  · rw [hok]
    refine .inl ⟨hresolves, _, errors, rfl, ?_, ?_⟩
    · rwa [contents_firstOutputs, List.flatMap_map] at hforall
    · intro k
      rw [contents_firstOutputs, List.map_map]
      have hlength : ((List.range last).map (List.filter (fun item => !item.carriesError) ∘
          itemsInTurn nodeSuccessData arrays)).length = last := by simp
      unfold at?
      rw [List.map_append, List.append_assoc]
      rcases lt_trichotomy k last with hk | rfl | hk
      · rw [if_pos hk, List.getElem?_append_left (by simpa using hk), List.getElem?_map,
          List.getElem?_map, List.getElem?_range hk]
        rfl
      · rw [if_neg (lt_irrefl k), if_pos rfl, List.getElem?_append_right (by simp)]
        simp
      · -- what is behind the error output is as it is in memory
        rw [if_neg hk.not_gt, if_neg hk.ne', List.getElem?_append_right (by simpa using hk.le)]
        obtain ⟨m, rfl⟩ := Nat.exists_eq_add_of_lt hk
        have hindex : last + m + 1 - (((List.range last).map
            (List.filter (fun item => !item.carriesError) ∘
              itemsInTurn nodeSuccessData arrays)).map some).length = m + 1 := by
          rw [List.length_map, hlength]
          omega
        rw [hindex, List.map_singleton, List.singleton_append, List.getElem?_cons_succ,
          List.getElem?_map, List.getElem?_drop, Nat.add_right_comm]
        unfold itemsAt at? Arrays.read
        cases nodeSuccessData[last + m + 1]? with
        | none => rfl
        | some output => cases output <;> rfl
  · rw [he]
    exact .inr ⟨hnot, e, rfl⟩

theorem meant_of_lt (hk : k < last) (before : ℕ → List OutputItem) :
    meant before (outputFor last) (last + 1) k =
      (before k).filter fun item => !item.carriesError := by
  rw [meant_eq_filter (hk.trans (Nat.lt_succ_self last))]
  · congr 1
    funext item
    unfold outputFor
    cases item.carriesError <;> simp [hk.ne']
  · intro i hi item _
    unfold outputFor
    cases item.carriesError <;> simp [hi, hk.ne']

theorem meant_last (before : ℕ → List OutputItem) :
    meant before (outputFor last) (last + 1) last =
      ((List.range last).flatMap fun i => (before i).filter OutputItem.carriesError) ++
        before last := by
  unfold meant
  rw [List.range_succ, List.flatMap_append, List.flatMap_singleton]
  congr 1
  · apply List.flatMap_congr
    intro i hi
    congr 1
    funext item
    unfold outputFor
    cases item.carriesError <;> simp [(List.mem_range.mp hi).ne]
  · apply List.filter_eq_self.mpr
    intro item _
    unfold outputFor
    cases item.carriesError <;> simp

theorem meant_of_gt (hk : last < k) (before : ℕ → List OutputItem) :
    meant before (outputFor last) (last + 1) k = [] := by
  apply List.flatMap_eq_nil_iff.mpr
  intro i hi
  apply List.filter_eq_nil_iff.mpr
  intro item _
  have := List.mem_range.mp hi
  unfold outputFor
  rw [decide_eq_true_iff]
  split_ifs <;> omega

/-- Sums of numbers that do not grow are equal only if all the numbers are. -/
theorem eq_of_sum_range_le {f g : ℕ → ℕ} (hle : ∀ i < last, f i ≤ g i)
    (hsum : ((List.range last).map g).sum ≤ ((List.range last).map f).sum) :
    ∀ i < last, f i = g i := by
  induction last with
  | zero =>
    intro i hi
    exact absurd hi (Nat.not_lt_zero i)
  | succ n ih =>
    have hle' : ∀ i < n, f i ≤ g i := fun i hi => hle i (Nat.lt_succ_of_lt hi)
    have hrest : ((List.range n).map f).sum ≤ ((List.range n).map g).sum :=
      List.sum_le_sum fun i hi => hle' i (List.mem_range.mp hi)
    have hlast := hle n (Nat.lt_succ_self n)
    rw [List.range_succ, List.map_append, List.map_append, List.sum_append, List.sum_append,
      List.map_singleton, List.map_singleton, List.sum_singleton, List.sum_singleton] at hsum
    intro i hi
    rcases Nat.lt_succ_iff_lt_or_eq.mp hi with hi | rfl
    · exact ih hle' (by omega) i hi
    · omega

/-- An output that keeps all its items was not taken before, unless there is nothing on it. -/
theorem itemsInTurn_eq (h : (itemsInTurn nodeSuccessData arrays k).length =
      (itemsAt nodeSuccessData arrays k).length) :
    itemsInTurn nodeSuccessData arrays k = itemsAt nodeSuccessData arrays k := by
  rcases @itemsInTurn_cases nodeSuccessData arrays k with heq | heq
  · exact heq
  · rw [heq] at h ⊢
    exact (List.length_eq_zero_iff.mp h.symm).symm

theorem mem_firstOutputs {output : Option ℕ} :
    output ∈ firstOutputs nodeSuccessData k ↔ ∃ i < k, at? nodeSuccessData i = output := by
  unfold firstOutputs
  simp

theorem Distinct.emptied_eq (h : Distinct last nodeSuccessData arrays) (hk : k < last) {array : ℕ}
    (harray : at? nodeSuccessData k = some array) :
    emptied (firstOutputs nodeSuccessData k) arrays array = arrays array := by
  unfold emptied
  split_ifs with hmem
  · obtain ⟨i, hi, hsome⟩ := mem_firstOutputs.mp hmem
    exact (h i k array hi hk hsome harray).symm
  · rfl

/-- An array is not taken before its turn. -/
theorem Routable.itemsInTurn_eq (h : Routable context fuel source last nodeSuccessData arrays)
    (hk : k < last) :
    itemsInTurn nodeSuccessData arrays k = itemsAt nodeSuccessData arrays k := by
  unfold itemsInTurn itemsAt Arrays.read
  cases harray : at? nodeSuccessData k with
  | none => rfl
  | some array => exact congrArg _ (h.distinct.emptied_eq hk harray)

theorem Routable.outputsResolve (h : Routable context fuel source last nodeSuccessData arrays) :
    OutputsResolve context fuel source (firstOutputs nodeSuccessData last) arrays := by
  rw [outputsResolve_iff]
  intro k array harray
  rcases lt_or_ge k last with hk | hk
  · rw [getElem?_firstOutputs hk, Option.some.injEq] at harray
    rw [take_firstOutputs hk.le, h.distinct.emptied_eq hk harray]
    exact fun j object hobject herror => h.resolves k array j object hk harray hobject herror
  · rw [List.getElem?_eq_none (by simp [firstOutputs, hk])] at harray
    cases harray

/-- A partition of the items leaves no other way. -/
theorem routable_of_distributes {after : InputData OutputItem} {errors : List OutputItem}
    (hdistributes : Distributes (last + 1) (itemsAt nodeSuccessData arrays) (outputFor last) Becomes
      fun i => (at? after i).getD [])
    (hresolves : OutputsResolve context fuel source (firstOutputs nodeSuccessData last) arrays)
    (hforall : List.Forall₂ Becomes ((List.range last).flatMap fun i =>
      (itemsInTurn nodeSuccessData arrays i).filter OutputItem.carriesError) errors)
    (hafter : ∀ k, (at? after k).getD [] =
      if k < last then (itemsInTurn nodeSuccessData arrays k).filter fun item => !item.carriesError
      else if k = last then errors
      else itemsAt nodeSuccessData (emptied (firstOutputs nodeSuccessData last) arrays) k) :
    Routable context fuel source last nodeSuccessData arrays := by
  set before := itemsAt nodeSuccessData arrays with hbefore
  set turn := itemsInTurn nodeSuccessData arrays with hturn
  have hlength := hdistributes.length_eq
  have hsuccess : ∀ k < last, ((turn k).filter fun item => !item.carriesError).length =
      ((before k).filter fun item => !item.carriesError).length := by
    intro k hk
    have := hlength k
    rwa [hafter, if_pos hk, meant_of_lt hk] at this
  have herrors := hlength last
  rw [hafter, if_neg (lt_irrefl last), if_pos rfl, ← hforall.length_eq, meant_last,
    List.length_append, List.length_flatMap, List.length_flatMap] at herrors
  have hle : ∀ i < last, ((turn i).filter OutputItem.carriesError).length ≤
      ((before i).filter OutputItem.carriesError).length := by
    intro i _
    rcases @itemsInTurn_cases nodeSuccessData arrays i with heq | heq
    · rw [hturn, heq]
    · rw [hturn, heq]
      exact Nat.zero_le _
  -- the sums agree, so each output keeps its items, and nothing is left for the error output
  have hequal := eq_of_sum_range_le hle (by omega)
  have hwhole : ∀ k < last, turn k = before k := by
    intro k hk
    apply itemsInTurn_eq
    rw [← hturn, ← hbefore, List.length_eq_length_filter_add OutputItem.carriesError,
      List.length_eq_length_filter_add (l := before k) OutputItem.carriesError, hequal k hk,
      hsuccess k hk]
  have hdistinct : Distinct last nodeSuccessData arrays := by
    intro i k array hi hk hsi hsk
    have hempty : turn k = [] := by
      rw [hturn]
      unfold itemsInTurn itemsAt
      rw [read_emptied, if_pos]
      · rfl
      · rw [hsk, mem_firstOutputs]
        exact ⟨i, hi, hsi⟩
    have hitems := (hwhole k hk).symm.trans hempty
    rw [hbefore] at hitems
    unfold itemsAt Arrays.read at hitems
    rw [hsk] at hitems
    exact List.map_eq_nil_iff.mp hitems
  refine ⟨?_, hdistinct, ?_⟩
  · show before last = []
    have hsums : ((List.range last).map fun i =>
        ((turn i).filter OutputItem.carriesError).length).sum =
        ((List.range last).map fun i =>
          ((before i).filter OutputItem.carriesError).length).sum := by
      congr 1
      exact List.map_congr_left fun i hi => hequal i (List.mem_range.mp hi)
    exact List.length_eq_zero_iff.mp (by omega)
  · intro k array j object hk harray hobject herror
    have hresolve := outputsResolve_iff.mp hresolves k array
      ((getElem?_firstOutputs hk).trans (congrArg some harray))
    rw [take_firstOutputs hk.le, hdistinct.emptied_eq hk harray] at hresolve
    exact hresolve j object hobject herror

/-- The items are partitioned only where the output of the node is routable. -/
theorem Partitions.routable (hlast : errorOutput outputs = last)
    (h : Partitions last nodeSuccessData arrays
      (handleNodeErrorOutput context fuel source outputs nodeSuccessData arrays)) :
    Routable context fuel source last nodeSuccessData arrays := by
  obtain ⟨after, hok, hdistributes⟩ := h
  rcases @handleNodeErrorOutput_cases context fuel source outputs nodeSuccessData arrays last hlast
    with ⟨hresolves, after', errors, hok', hforall, hafter⟩ | ⟨-, e, he⟩
  · rw [hok] at hok'
    cases hok'
    exact routable_of_distributes hdistributes hresolves hforall hafter
  · rw [he] at hok
    cases hok

theorem Routable.partitions (hlast : errorOutput outputs = last)
    (hbehind : ∀ i, last < i → itemsAt nodeSuccessData arrays i = [])
    (h : Routable context fuel source last nodeSuccessData arrays) :
    Partitions last nodeSuccessData arrays
      (handleNodeErrorOutput context fuel source outputs nodeSuccessData arrays) := by
  have hturn := fun k hk => @Routable.itemsInTurn_eq _ _ _ _ _ _ k h hk
  rcases @handleNodeErrorOutput_cases context fuel source outputs nodeSuccessData arrays last hlast
    with ⟨-, after, errors, hok, hforall, hafter⟩ | ⟨hnot, -⟩
  · refine ⟨after, hok, distributes_of_meant fun k => ?_⟩
    rw [hafter]
    rcases lt_trichotomy k last with hk | rfl | hk
    · rw [if_pos hk, meant_of_lt hk, hturn k hk]
      exact List.forall₂_same.mpr fun item _ => Becomes.refl item
    · rw [if_neg (lt_irrefl k), if_pos rfl, meant_last, h.unfilled, List.append_nil]
      have herrors : ((List.range k).flatMap fun i =>
          (itemsInTurn nodeSuccessData arrays i).filter OutputItem.carriesError) =
          (List.range k).flatMap fun i =>
            (itemsAt nodeSuccessData arrays i).filter OutputItem.carriesError := by
        apply List.flatMap_congr
        intro i hi
        rw [hturn i (List.mem_range.mp hi)]
      rwa [herrors] at hforall
    · rw [if_neg hk.not_gt, if_neg hk.ne', meant_of_gt hk]
      have hempty := hbehind k hk
      unfold itemsAt at hempty ⊢
      rw [read_emptied]
      split_ifs
      · exact .nil
      · rw [hempty]
        exact .nil
  · exact absurd h.outputsResolve hnot

/-- **The items are partitioned** exactly where the output of the node is routable. -/
theorem partitions_iff_routable (context : RunContext) (fuel : ℕ)
    (source : Option (List (Option ISourceData))) (outputs : List String)
    (nodeSuccessData : List (Option ℕ)) (arrays : Arrays)
    (h : ∀ i, errorOutput outputs < i → itemsAt nodeSuccessData arrays i = []) :
    Partitions (errorOutput outputs) nodeSuccessData arrays
        (handleNodeErrorOutput context fuel source outputs nodeSuccessData arrays) ↔
      Routable context fuel source (errorOutput outputs) nodeSuccessData arrays := by
  constructor
  · exact Partitions.routable rfl
  · exact Routable.partitions rfl h

end Outputs

/-! ## A node with one output -/

/-- An item that says that it was made of the first item of the input. -/
def pairedWithFirst (json : IDataObject) : OutputItem :=
  ⟨json, none, some (.one (.data ⟨0, none, none⟩))⟩

/-- The node returned an item with an error and one without, and the node before it one item. -/
def searchArrays : Arrays
  | 0 => [⟨0, pairedWithFirst (OrderedMap.empty.set "error" (.string "Not found"))⟩,
      ⟨1, pairedWithFirst (OrderedMap.empty.set "name" (.string "a"))⟩]
  | 1 => [⟨2, ⟨OrderedMap.empty.set "id" (.number 7), none, none⟩⟩]
  | _ => []

def searchContext : RunContext where
  runData := OrderedMap.empty.set "Start" [⟨[some 1], []⟩]
  pinData _ := none

theorem partitions_search : Partitions 1 [some 0] searchArrays
    (handleNodeErrorOutput searchContext 1 (some [some ⟨"Start", 0, 0⟩]) ["main"] [some 0]
      searchArrays) := by
  apply (partitions_iff_routable searchContext 1 (some [some ⟨"Start", 0, 0⟩]) ["main"] [some 0]
    searchArrays ?_).mpr
  · refine ⟨rfl, ?_, ?_⟩
    · intro i k array hi hk
      have : k < 1 := hk
      omega
    · intro k array j object hk harray hobject herror
      have : k < 1 := hk
      obtain rfl : k = 0 := by omega
      obtain rfl : 0 = array := Option.some.inj harray
      match j with
      | 0 =>
        cases hobject
        intro sources pairedItemData hsources hpaired
        cases hsources
        cases hpaired
        exact ⟨⟨"Start", 0, 0⟩, _, rfl, rfl⟩
      | 1 =>
        cases hobject
        exact absurd herror (by decide)
      | j + 2 => cases hobject
  · intro i hi
    have : 1 < i := hi
    unfold itemsAt at?
    rw [List.getElem?_eq_none (by simp; omega)]
    rfl

/-- What the node put on its error output itself is gone. -/
theorem not_partitions_filled : ¬ Partitions 1 [some 0, some 1] searchArrays
    (handleNodeErrorOutput searchContext 1 (some [some ⟨"Start", 0, 0⟩]) ["main"] [some 0, some 1]
      searchArrays) := by
  intro h
  have hempty := (Partitions.routable rfl h).unfilled
  cases hempty

end N8n.WorkflowExecute
