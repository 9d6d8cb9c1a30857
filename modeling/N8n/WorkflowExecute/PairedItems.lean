import N8n.WorkflowExecute.EngineRequests

/-!
# Paired items

An item says which item of the input it was made of. The engine follows this back, through the
outputs of the nodes that ran before, to the item of a given node.

## Main definitions

* `OutputItem`: an item of an output
* `RunContext`: the runs of the nodes, with their outputs in memory
* `resolvePairedItem`: the item of a node that an item is paired with
-/

namespace N8n.WorkflowExecute

/-! ## Items in memory -/

structure PairedItemData where
  item : ℕ
  input : Option ℕ
  sourceOverwrite : Option ISourceData

/-- A paired item is given by its index only, or with its input. -/
inductive PairedItemRef
  | number (item : ℕ)
  | data (pairedItem : PairedItemData)

inductive PairedItemInfo
  | one (pairedItem : PairedItemRef)
  | many (pairedItems : List PairedItemRef)

structure OutputItem where
  json : IDataObject
  error : Option JsonValue
  pairedItem : Option PairedItemInfo

/-- An item in memory. Two of them are the same object if they have the same `id`. -/
structure ItemObject where
  id : ℕ
  item : OutputItem

/-- What the arrays of items in memory hold, by their addresses. -/
abbrev Arrays := ℕ → List ItemObject

def Arrays.read (arrays : Arrays) (array : Option ℕ) : List ItemObject := array.elim [] arrays

/-! ## Runs -/

/-- A run of a node: its outputs and where its inputs came from. -/
structure ITaskData where
  main : List (Option ℕ)
  source : List (Option ISourceData)

structure RunContext where
  runData : OrderedMap String (List ITaskData)
  /-- The pinned data of a node, where the execution is a manual one. -/
  pinData : String → Option ℕ

inductive PairedItemError
  | pairedItemNotFound
  | missingOutputData
  | missingPairedItem
  | multipleItemsFound
  /-- A property of `undefined` is read. -/
  | typeError
  /-- There are too many calls within each other. -/
  | rangeError

/-! ## The way back -/

section Resolve

variable (context : RunContext) (arrays : Arrays)

def pinDataToTask (pinData : ℕ) : ITaskData := ⟨[some pinData], []⟩

def getTaskData (source : ISourceData) : Option ITaskData :=
  (((context.runData.get? source.previousNode).getD [])[source.previousNodeRun]?).or
    ((context.pinData source.previousNode).map pinDataToTask)

def getNodeOutput (taskData : Option ITaskData) (source : ISourceData) :
    Except PairedItemError (List ItemObject) :=
  match taskData.bind fun taskData => at? taskData.main source.previousNodeOutput with
  | none => .error .missingOutputData
  | some outputs => .ok (arrays outputs)

def PairedItemRef.normalize : PairedItemRef → PairedItemData
  | .number item => ⟨item, none, none⟩
  | .data pairedItem => pairedItem

def normalizePairedItem : Option PairedItemInfo → List PairedItemData
  | none => []
  | some (.one pairedItem) => [pairedItem.normalize]
  | some (.many pairedItems) => pairedItems.map PairedItemRef.normalize

/-- The item of the first of the results that are there, if they are all the same object. -/
def oneItem (results : List (Except PairedItemError ItemObject)) :
    Except PairedItemError ItemObject :=
  match results.filterMap Except.toOption with
  | [] =>
    match results with
    | [] => .error .typeError
    | result :: _ => result
  | first :: rest => if rest.any (·.id ≠ first.id) then .error .multipleItemsFound else .ok first

/-- The item of the destination that an item is paired with. The results are the same with and
without the memo of the source; `fuel` bounds the depth of the calls. -/
def resolvePairedItem (destinationNodeName : String) :
    ℕ → Option ISourceData → PairedItemData → Except PairedItemError ItemObject
  | 0, _, _ => .error .rangeError
  | fuel + 1, incomingSourceData, pairedItem =>
    match pairedItem.sourceOverwrite.or incomingSourceData with
    | none => .error .pairedItemNotFound
    | some sourceData => do
      let taskData := getTaskData context sourceData
      let outputData ← getNodeOutput arrays taskData sourceData
      let sourceArray := taskData.elim [] ITaskData.source
      if sourceData.previousNode = destinationNodeName then
        match outputData[pairedItem.item]? with
        | none => .error .missingPairedItem
        | some item => .ok item
      else
        match outputData[pairedItem.item]? with
        | none => .error .typeError
        | some item =>
          let nextPairedItems := normalizePairedItem item.item.pairedItem
          if nextPairedItems = [] then .error .missingPairedItem
          else
            -- an item that names an input the node did not have leads nowhere
            let within := nextPairedItems.filter fun next =>
              next.input.getD 0 < sourceArray.length
            oneItem (within.map fun next =>
              resolvePairedItem destinationNodeName fuel (at? sourceArray (next.input.getD 0)) next)

def getPairedItem (fuel : ℕ) (destinationNodeName : String) (sourceData : Option ISourceData)
    (pairedItem : PairedItemRef) : Except PairedItemError ItemObject :=
  resolvePairedItem context arrays destinationNodeName fuel sourceData pairedItem.normalize

end Resolve

end N8n.WorkflowExecute
